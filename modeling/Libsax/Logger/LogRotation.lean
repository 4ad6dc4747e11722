import Mathlib.Data.List.Basic
import Libsax.Logger.LogFileWriter

/-! Rotation keeps a suffix of the log: the cascade of renames shifts the files
by one, and the count of files that a new writer finds is as good as the one that
the writer before it kept. -/
namespace Libsax.Logger

open Libsax.Lib

variable {host : Host} {files : Files} {name : String}

private theorem repr_injective {i j : Nat} (heq : Nat.repr i = Nat.repr j) : i = j := by
  have hdigits : Nat.toDigits 10 i = Nat.toDigits 10 j := by
    have hlist := congrArg String.toList heq
    simpa [Nat.repr] using hlist
  have hvalues := congrArg (fun digits => Nat.ofDigitChars 10 digits 0) hdigits
  simpa using hvalues

@[simp] theorem numbered_inj {i j : Nat} : numbered name i = numbered name j ↔ i = j := by
  refine ⟨fun heq => repr_injective ?_, fun heq => by rw [heq]⟩
  have hlist := congrArg String.toList heq
  unfold numbered at hlist
  simp only [String.toList_append] at hlist
  exact String.toList_injective (List.append_cancel_left hlist)

theorem numbered_ne (name : String) (i : Nat) : numbered name i ≠ name := by
  intro heq
  have hlength := congrArg String.length heq
  unfold numbered at hlength
  rw [String.length_append, String.length_append] at hlength
  have hdot : (".").length = 1 := rfl
  omega

def Rotated (files : Files) (name : String) (rotated : List Bytes) : Prop :=
  ∀ i, files (numbered name (i + 1)) = rotated[i]?

theorem Rotated.congr {other : Files} {rotated : List Bytes}
    (hrotated : Rotated files name rotated)
    (hsame : ∀ i, other (numbered name (i + 1)) = files (numbered name (i + 1))) :
    Rotated other name rotated := fun i => (hsame i).trans (hrotated i)

theorem Rotated.update {rotated : List Bytes} (hrotated : Rotated files name rotated)
    (content : Option Bytes) : Rotated (Function.update files name content) name rotated :=
  hrotated.congr fun i => Function.update_of_ne (numbered_ne name (i + 1)) content files

private theorem concatenated_eq {rotated : List Bytes} (hrotated : Rotated files name rotated) :
    concatenated files name rotated.length =
      rotated.reverse.flatten ++ (files name).getD [] := by
  have hupto : ∀ count, count ≤ rotated.length → concatenated files name count =
      (rotated.take count).reverse.flatten ++ (files name).getD [] := by
    intro count hcount
    induction count with
    | zero => rfl
    | succ count ih =>
      have hlt : count < rotated.length := hcount
      unfold concatenated
      rw [ih (Nat.le_of_lt hlt), hrotated count, List.getElem?_eq_getElem hlt, List.take_add_one,
        List.getElem?_eq_getElem hlt, List.reverse_append, List.flatten_append]
      simp
  rw [hupto _ (Nat.le_refl _), List.take_length]

private theorem rename_eq {source target : String} {content : Bytes}
    (hrenames : host.renames source target = true) (hsource : files source = some content) :
    rename host files source target =
      Function.update (Function.update files source none) target (some content) := by
  unfold rename
  rw [hsource]
  exact if_pos hrenames

/-- The cascade shifts `name.1` to `name.m` by one, if the name behind is free. -/
private theorem cascade_shifts (hrenames : ∀ source target, host.renames source target = true)
    (m : Nat) {files : Files} (hthere : ∀ i < m, (files (numbered name (i + 1))).isSome)
    (hfree : files (numbered name (m + 1)) = none) :
    ∃ next, cascade host name m files (numbered name (m + 1)) = (next, numbered name 1) ∧
      next (numbered name 1) = none ∧
      (∀ i < m, next (numbered name (i + 2)) = files (numbered name (i + 1))) ∧
      ∀ path, (∀ i ≤ m, path ≠ numbered name (i + 1)) → next path = files path := by
  induction m generalizing files with
  | zero => exact ⟨files, rfl, hfree, fun _ hi => absurd hi (Nat.not_lt_zero _), fun _ _ => rfl⟩
  | succ m ih =>
    obtain ⟨content, hcontent⟩ := Option.isSome_iff_exists.mp (hthere m (Nat.lt_succ_self m))
    have hrename := rename_eq (hrenames _ (numbered name (m + 2))) hcontent
    set moved := rename host files (numbered name (m + 1)) (numbered name (m + 2)) with hmoved
    have hsame : ∀ path, path ≠ numbered name (m + 1) → path ≠ numbered name (m + 2) →
        moved path = files path := by
      intro path hsource htarget
      rw [hrename, Function.update_of_ne htarget, Function.update_of_ne hsource]
    have hother : ∀ i j, i ≠ j → numbered name i ≠ numbered name j :=
      fun i j hne heq => hne (numbered_inj.mp heq)
    have hbelow : ∀ i < m, moved (numbered name (i + 1)) = files (numbered name (i + 1)) :=
      fun i hi => hsame _ (hother _ _ (by omega)) (hother _ _ (by omega))
    have hfreed : moved (numbered name (m + 1)) = none := by
      rw [hrename, Function.update_of_ne (hother _ _ (by omega)), Function.update_self]
    obtain ⟨next, hcascade, hfirst, hshift, hrest⟩ := ih
      (fun i hi => hbelow i hi ▸ hthere i (Nat.lt_succ_of_lt hi)) hfreed
    refine ⟨next, hcascade, hfirst, ?_, ?_⟩
    · intro i hi
      rcases Nat.lt_succ_iff_lt_or_eq.mp hi with hlt | rfl
      · rw [hshift i hlt, hbelow i hlt]
      · rw [hrest _ fun j hj => hother _ _ (by omega), hrename, Function.update_self, hcontent]
    · intro path hpath
      rw [hrest path fun i hi => hpath i (Nat.le_succ_of_le hi)]
      exact hsame path (hpath m (Nat.le_succ m)) (hpath (m + 1) (Nat.le_refl _))

/-- The count of rotated files that a writer may go by: it is exact, or one less
when there is no room for another file. -/
def Counted (maxLogfiles count length : Nat) : Prop :=
  count = length ∨ count + 1 = maxLogfiles ∧ length = maxLogfiles

theorem Counted.next {maxLogfiles count length : Nat} (hlength : length ≤ maxLogfiles)
    (hcounted : Counted maxLogfiles count length) :
    (if count < maxLogfiles then count + 1 else count) = min (length + 1) maxLogfiles := by
  rcases hcounted with rfl | ⟨hcount, hfull⟩
  · split_ifs <;> omega
  · split_ifs <;> omega

/-- A writer with an open file, the archive on the disk, and a size and a count
that agree with it. -/
structure Writes (name : String) (maxFiles : Nat) (limit : UInt64) (s : State) (a : Archive) :
    Prop where
  logfileName : s.writer.logfileName = name
  maxLogfiles : s.writer.maxLogfiles = maxFiles
  sizePerLogfile : s.writer.sizePerLogfile = limit
  currLogfile : s.writer.currLogfile = .file name
  currSize : s.writer.currSize = UInt64.ofNat a.current.length
  counted : Counted maxFiles s.writer.currLogfiles a.rotated.length
  current : s.files name = some a.current
  rotated : Rotated s.files name a.rotated
  bounded : a.rotated.length ≤ maxFiles

variable {maxFiles : Nat} {limit : UInt64} {s : State} {rotated : List Bytes}
  {current : Bytes}

theorem openFile_eq (hopens : host.opens s.writer.logfileName = true)
    (hname : s.writer.logfileName ≠ "") (hstream : isStream s.writer.logfileName = false) :
    openFile host s = some { s with
      files := Function.update s.files s.writer.logfileName
        (some ((s.files s.writer.logfileName).getD []))
      writer := { s.writer with
        currLogfile := .file s.writer.logfileName
        currSize := UInt64.ofNat ((s.files s.writer.logfileName).getD []).length } } := by
  unfold openFile fopen
  rw [if_neg hname, hstream, if_pos hopens]
  rfl

theorem closeFile_eq {path : String} (hfile : s.writer.currLogfile = .file path)
    (hstream : isStream s.writer.logfileName = false) :
    closeFile s = { s with writer := { s.writer with currLogfile := .null } } := by
  unfold closeFile
  have hopen : s.writer.currLogfile ≠ .null := by
    rw [hfile]
    exact Handle.noConfusion
  rw [if_pos ⟨hopen, hstream⟩]

private theorem rotated_renames (hrenames : ∀ source target, host.renames source target = true)
    (hrotated : Rotated files name rotated) (hcurrent : files name = some current) {count : Nat}
    (hbounded : rotated.length ≤ maxFiles) (hcount : count = min (rotated.length + 1) maxFiles)
    (hpos : 1 ≤ count) :
    ∃ next last, cascade host name (count - 1) (remove files (numbered name count))
        (numbered name count) = (next, last) ∧
      rename host next name last name = none ∧
      Rotated (rename host next name last) name ((current :: rotated).take maxFiles) := by
  obtain ⟨m, rfl⟩ := Nat.exists_eq_add_of_le' hpos
  have hother : ∀ i j, i ≠ j → numbered name i ≠ numbered name j :=
    fun i j hne heq => hne (numbered_inj.mp heq)
  have hkept : ∀ i, i ≠ m → remove files (numbered name (m + 1)) (numbered name (i + 1)) =
      rotated[i]? := by
    intro i hne
    unfold remove
    rw [Function.update_of_ne (hother _ _ (by omega)), hrotated i]
  have hthere : ∀ i < m, (remove files (numbered name (m + 1)) (numbered name (i + 1))).isSome := by
    intro i hi
    rw [hkept i (Nat.ne_of_lt hi), List.getElem?_eq_getElem (by omega)]
    rfl
  have hfree : remove files (numbered name (m + 1)) (numbered name (m + 1)) = none :=
    Function.update_self _ _ _
  obtain ⟨next, hcascade, hfirst, hshift, hrest⟩ := cascade_shifts hrenames m hthere hfree
  have hnext : next name = some current := by
    rw [hrest name fun i _ => (numbered_ne name (i + 1)).symm]
    unfold remove
    rw [Function.update_of_ne (numbered_ne name (m + 1)).symm, hcurrent]
  have hrename := rename_eq (hrenames name (numbered name 1)) hnext
  refine ⟨next, numbered name 1, hcascade, ?_, ?_⟩
  · rw [hrename, Function.update_of_ne (numbered_ne name 1).symm, Function.update_self]
  · intro i
    rw [hrename]
    cases i with
    | zero =>
      rw [Function.update_self, List.getElem?_take_of_lt (by omega)]
      rfl
    | succ i =>
      rw [Function.update_of_ne (hother _ _ (by omega)),
        Function.update_of_ne (numbered_ne name (i + 1 + 1))]
      by_cases hi : i < m
      · rw [hshift i hi, hkept i (Nat.ne_of_lt hi), List.getElem?_take_of_lt (by omega)]
        rfl
      · have hnone : ((current :: rotated).take maxFiles)[i + 1]? = none := by
          rw [List.getElem?_eq_none_iff, List.length_take, List.length_cons]
          omega
        rw [hnone, hrest _ fun j hj => hother _ _ (by omega), hkept (i + 1) (by omega),
          List.getElem?_eq_none_iff]
        omega

structure Usable (host : Host) (name : String) : Prop where
  nonempty : name ≠ ""
  file : isStream name = false
  opens : host.opens name = true
  renames : ∀ source target, host.renames source target = true

private theorem writes_of_openFile (husable : Usable host name) {s : State} {a : Archive}
    (hname : s.writer.logfileName = name) (hmax : s.writer.maxLogfiles = maxFiles)
    (hlimit : s.writer.sizePerLogfile = limit)
    (hcounted : Counted maxFiles s.writer.currLogfiles a.rotated.length)
    (hcurrent : (s.files name).getD [] = a.current) (hrotated : Rotated s.files name a.rotated)
    (hbounded : a.rotated.length ≤ maxFiles) :
    ∃ next, openFile host s = some next ∧ Writes name maxFiles limit next a := by
  subst hname
  refine ⟨_, openFile_eq husable.opens husable.nonempty husable.file, rfl, hmax, hlimit, rfl, ?_,
    hcounted, ?_, hrotated.update _, hbounded⟩
  · rw [← hcurrent]
  · rw [← hcurrent]
    exact Function.update_self _ _ _

theorem Writes.rotate (husable : Usable host name) (hmax : 1 ≤ maxFiles) {a : Archive}
    (hwrites : Writes name maxFiles limit s a) (dropped : List Bytes) :
    ∃ next, Logger.rotate host s = some next ∧ Writes name maxFiles limit next
      ⟨dropped, (a.current :: a.rotated).take maxFiles, []⟩ := by
  obtain rfl := hwrites.logfileName
  obtain rfl := hwrites.maxLogfiles
  have hcount := hwrites.counted.next hwrites.bounded
  obtain ⟨next, last, hcascade, hgone, hrotated⟩ := rotated_renames husable.renames
    hwrites.rotated hwrites.current hwrites.bounded hcount (by omega)
  have hopen : ¬(s.writer.currLogfile = .null ∨ isStream s.writer.logfileName = true) := by
    rw [hwrites.currLogfile, husable.file]
    rintro (h | h) <;> cases h
  have hlength : ((a.current :: a.rotated).take s.writer.maxLogfiles).length =
      min (a.rotated.length + 1) s.writer.maxLogfiles := by
    rw [List.length_take, List.length_cons, Nat.min_comm]
  have hclose : ∀ files count,
      closeFile { s with files := files, writer := { s.writer with currLogfiles := count } } =
        { s with
          files := files
          writer := { s.writer with currLogfiles := count, currLogfile := .null } } :=
    fun _ _ => closeFile_eq hwrites.currLogfile husable.file
  unfold Logger.rotate
  simp only [if_neg hopen, hcascade, hclose]
  refine writes_of_openFile husable rfl rfl hwrites.sizePerLogfile (Or.inl ?_) ?_ hrotated ?_
  · rw [hlength]
    exact hcount
  · exact congrArg (fun content => content.getD []) hgone
  · rw [hlength]
    exact Nat.min_le_right _ _

theorem Writes.append {a : Archive} (hwrites : Writes name maxFiles limit s a) (line : Bytes) :
    Writes name maxFiles limit { fwrite s line with
      writer := { (fwrite s line).writer with
        currSize := (fwrite s line).writer.currSize + UInt64.ofNat line.length } }
      { a with current := a.current ++ line } := by
  have hwrite : fwrite s line = { s with
      files := Function.update s.files name (some (a.current ++ line)) } := by
    unfold fwrite
    simp only [hwrites.currLogfile, hwrites.current]
    rfl
  rw [hwrite]
  refine { hwrites with
    currSize := ?_
    current := Function.update_self _ _ _
    rotated := hwrites.rotated.update _ }
  rw [List.length_append, UInt64.ofNat_add, ← hwrites.currSize]

theorem Writes.log (husable : Usable host name) (hmax : 1 ≤ maxFiles) {a : Archive}
    (hwrites : Writes name maxFiles limit s a) (line : Bytes) :
    ∃ next, Logger.log host s line = some next ∧
      Writes name maxFiles limit next (a.log maxFiles limit line) := by
  have happend := hwrites.append line
  set appended : State := { fwrite s line with
    writer := { (fwrite s line).writer with
      currSize := (fwrite s line).writer.currSize + UInt64.ofNat line.length } }
  have hlog : Logger.log host s line =
      if appended.writer.currSize ≥ appended.writer.sizePerLogfile then
        Logger.rotate host appended
      else some appended := rfl
  rw [hlog, happend.currSize, happend.sizePerLogfile]
  unfold Archive.log
  simp only
  split_ifs
  · exact happend.rotate husable hmax _
  · exact ⟨_, rfl, happend⟩

private theorem scan_spec {taken : Nat → Bool} {length : Nat} (fuel i : Nat)
    (htaken : ∀ j, i ≤ j → (taken j ↔ j ≤ length)) (hi : i ≤ length + 1) :
    scan taken fuel i = min (length + 1) (i + fuel) := by
  induction fuel generalizing i with
  | zero =>
    unfold scan
    omega
  | succ fuel ih =>
    unfold scan
    split_ifs with hhere
    · have hle := (htaken i (Nat.le_refl i)).mp hhere
      rw [ih (i + 1) (fun j hj => htaken j (by omega)) (by omega)]
      omega
    · have hgt : ¬i ≤ length := fun hle => hhere ((htaken i (Nat.le_refl i)).mpr hle)
      omega

private theorem writes_of_construct (husable : Usable host name) (hmax : 1 ≤ maxFiles)
    (limit : UInt64) (console : Bytes) {a : Archive} (hcurrent : (files name).getD [] = a.current)
    (hrotated : Rotated files name a.rotated) (hbounded : a.rotated.length ≤ maxFiles) :
    ∃ next, construct host files console name maxFiles limit = some next ∧
      Writes name maxFiles limit next a := by
  have htaken : ∀ j, 1 ≤ j → ((files (numbered name j)).isSome ↔ j ≤ a.rotated.length) := by
    intro j hj
    obtain ⟨i, rfl⟩ := Nat.exists_eq_add_of_le' hj
    rw [hrotated i, isSome_getElem?]
    exact Iff.rfl
  have hscan := scan_spec (maxFiles - 1) 1 htaken (by omega)
  unfold construct
  refine writes_of_openFile husable rfl rfl rfl ?_ hcurrent hrotated hbounded
  simp only [husable.file, hscan, Bool.false_eq_true, if_false]
  unfold Counted
  omega

theorem Writes.restart (husable : Usable host name) (hmax : 1 ≤ maxFiles) {a : Archive}
    (hwrites : Writes name maxFiles limit s a) :
    ∃ next, Logger.restart host s = some next ∧ Writes name maxFiles limit next a := by
  unfold Logger.restart
  rw [closeFile_eq hwrites.currLogfile (hwrites.logfileName ▸ husable.file)]
  simp only [hwrites.logfileName, hwrites.maxLogfiles, hwrites.sizePerLogfile]
  refine writes_of_construct husable hmax limit s.console ?_ hwrites.rotated hwrites.bounded
  rw [hwrites.current]
  rfl

/-- Everything that the archive was given. -/
def Archive.everything (a : Archive) : Bytes :=
  a.dropped.flatten ++ (a.rotated.reverse.flatten ++ a.current)

@[simp] theorem Archive.log_everything (a : Archive) (line : Bytes) :
    (a.log maxFiles limit line).everything = a.everything ++ line := by
  unfold Archive.log
  simp only
  split_ifs
  · have hsplit : ((a.current ++ line) :: a.rotated).reverse =
        (((a.current ++ line) :: a.rotated).drop maxFiles).reverse ++
          (((a.current ++ line) :: a.rotated).take maxFiles).reverse := by
      rw [← List.reverse_append, List.take_append_drop]
    have hflat := congrArg List.flatten hsplit
    rw [List.flatten_append, List.reverse_cons, List.flatten_append] at hflat
    unfold Archive.everything
    rw [List.flatten_append, List.append_nil, List.append_assoc, ← hflat]
    simp
  · simp [Archive.everything]

theorem Archive.log_drops {a : Archive} (hbounded : a.rotated.length ≤ maxFiles) (line : Bytes) :
    DropsOldest maxFiles a (a.log maxFiles limit line) := by
  unfold Archive.log
  simp only
  split_ifs
  · refine Or.inr ⟨a.current ++ line, List.prefix_append _ _, rfl, ?_⟩
    rcases Nat.lt_or_eq_of_le hbounded with hroom | hfull
    · refine Or.inl ⟨hroom, List.take_of_length_le hroom, ?_⟩
      rw [List.drop_of_length_le hroom]
      exact List.append_nil _
    · obtain ⟨oldest, holdest⟩ : ∃ oldest,
          ((a.current ++ line) :: a.rotated).drop maxFiles = [oldest] := by
        refine List.length_eq_one_iff.mp ?_
        rw [List.length_drop, List.length_cons]
        omega
      refine Or.inr ⟨_, oldest, hfull, ?_, rfl, ?_⟩
      · rw [← holdest, List.take_append_drop]
      · rw [holdest]
        rfl
  · exact Or.inl ⟨rfl, rfl, List.prefix_append _ _⟩

structure Inv (name : String) (maxFiles : Nat) (limit : UInt64) (system : System) : Prop where
  writes : Writes name maxFiles limit system.state system.archive
  everything : system.archive.everything = system.logged

theorem Inv.step (husable : Usable host name) (hmax : 1 ≤ maxFiles) {system : System}
    (hinv : Inv name maxFiles limit system) (action : Action) :
    ∃ next, Logger.step host system action = some next ∧ Inv name maxFiles limit next ∧
      DropsOldest maxFiles system.archive next.archive := by
  cases action with
  | log line =>
    obtain ⟨state, hlog, hwrites⟩ := hinv.writes.log husable hmax line
    refine ⟨⟨state, system.archive.log maxFiles limit line, system.logged ++ line⟩, ?_,
      ⟨hwrites, ?_⟩, Archive.log_drops hinv.writes.bounded line⟩
    · simp only [Logger.step, hlog, Option.bind_eq_bind, Option.bind_some,
        hinv.writes.maxLogfiles, hinv.writes.sizePerLogfile]
      rfl
    · rw [← hinv.everything]
      exact Archive.log_everything system.archive line
  | restart =>
    obtain ⟨state, hrestart, hwrites⟩ := hinv.writes.restart husable hmax
    refine ⟨{ system with state := state }, ?_, ⟨hwrites, hinv.everything⟩,
      Or.inl ⟨rfl, rfl, List.prefix_refl _⟩⟩
    simp only [Logger.step, hrestart, Option.bind_eq_bind, Option.bind_some]
    rfl

theorem Inv.sound {system : System} (hinv : Inv name maxFiles limit system) :
    Sound name maxFiles system := by
  have hlost : system.archive.dropped.flatten ++
      concatenated system.state.files name system.archive.rotated.length = system.logged := by
    rw [concatenated_eq hinv.writes.rotated, hinv.writes.current, ← hinv.everything]
    rfl
  exact ⟨hinv.writes.current, hinv.writes.rotated, hinv.writes.bounded,
    ⟨_, hlost⟩, hlost⟩

private theorem archived_rotated {count : Nat} (hcontiguous : Contiguous files name count) :
    Rotated files name (archived files name count).rotated := by
  intro i
  by_cases hi : i < count
  · obtain ⟨content, hcontent⟩ := Option.isSome_iff_exists.mp ((hcontiguous i).mpr hi)
    simp [archived, hi, hcontent]
  · have hnone : files (numbered name (i + 1)) = none := by
      rw [← Option.not_isSome_iff_eq_none]
      exact fun hsome => hi ((hcontiguous i).mp hsome)
    simp [archived, hi, hnone]

@[simp] private theorem archived_length (files : Files) (name : String) (count : Nat) :
    (archived files name count).rotated.length = count := by
  unfold archived
  rw [List.length_map, List.length_range]

/-- A writer to `stdout` or `stderr` has the stream in its hand. -/
structure Streams (files : Files) (s : State) : Prop where
  stream : isStream s.writer.logfileName = true
  nonempty : s.writer.logfileName ≠ ""
  currLogfile : s.writer.currLogfile = .stream
  files : s.files = files

private theorem streams_of_openFile {s : State} (hstream : isStream s.writer.logfileName = true)
    (hname : s.writer.logfileName ≠ "") :
    ∃ next, openFile host s = some next ∧ Streams s.files next := by
  unfold openFile
  rw [if_neg hname, if_pos hstream]
  exact ⟨_, rfl, hstream, hname, rfl, rfl⟩

theorem Streams.step {system : System} (hstreams : Streams files system.state)
    (action : Action) :
    ∃ next, Logger.step host system action = some next ∧ Streams files next.state := by
  obtain ⟨hstream, hname, hopen, hfiles⟩ := hstreams
  cases action with
  | log line =>
    have hwrite : fwrite system.state line =
        { system.state with console := system.state.console ++ line } := by
      unfold fwrite
      rw [hopen]
    have hlog : ∃ next, log host system.state line = some next ∧ Streams files next := by
      unfold log rotate
      rw [hwrite]
      simp only [hstream, or_true, if_true]
      split_ifs
      · exact ⟨_, rfl, hstream, hname, hopen, hfiles⟩
      · exact ⟨_, rfl, hstream, hname, hopen, hfiles⟩
    obtain ⟨state, hstate, hnext⟩ := hlog
    have hstep : Logger.step host system (.log line) = some ⟨state, system.archive.log
        system.state.writer.maxLogfiles system.state.writer.sizePerLogfile line,
        system.logged ++ line⟩ := by
      simp only [Logger.step, hstate, Option.bind_eq_bind, Option.bind_some]
      rfl
    exact ⟨_, hstep, hnext⟩
  | restart =>
    have hclose : closeFile system.state = system.state := by
      unfold closeFile
      rw [if_neg]
      rintro ⟨-, hfile⟩
      rw [hstream] at hfile
      cases hfile
    have hrestart : ∃ next, restart host system.state = some next ∧ Streams files next := by
      unfold restart construct
      rw [hclose, ← hfiles]
      exact streams_of_openFile hstream hname
    obtain ⟨state, hstate, hnext⟩ := hrestart
    refine ⟨{ system with state := state }, ?_, hnext⟩
    simp only [Logger.step, hstate, Option.bind_eq_bind, Option.bind_some]
    rfl

private theorem stream_files_unchanged (host : Host) (files : Files) (name : String)
    (hstream : isStream name = true) (hname : name ≠ "") (count maxLogfiles : Nat)
    (sizePerLogfile : UInt64) (actions : List Action) :
    ∃ first final, start host files name count maxLogfiles sizePerLogfile = some first ∧
      run (step host) first actions = some final ∧ final.state.files = files := by
  obtain ⟨state, hstate, hstreams⟩ : ∃ state,
      construct host files [] name maxLogfiles sizePerLogfile = some state ∧
        Streams files state := streams_of_openFile hstream hname
  have hstart : start host files name count maxLogfiles sizePerLogfile =
      some ⟨state, archived files name count, concatenated files name count⟩ := by
    simp only [start, hstate, Option.bind_eq_bind, Option.bind_some]
    rfl
  set first : System := ⟨state, archived files name count, concatenated files name count⟩
  have hfirst : Streams files first.state := hstreams
  have hstep : ∀ system action, True → Streams files system.state →
      ∃ next, step host system action = some next ∧ Streams files next.state :=
    fun _ action _ hstreams => hstreams.step action
  obtain ⟨final, hrun, hfinal⟩ :=
    run_along hstep (along_of_forall (fun action (_ : action ∈ actions) => trivial) first) hfirst
  exact ⟨first, final, hstart, hrun, hfinal.files⟩

/-- Whatever is logged and however often the writer starts anew, the files hold
the end of the log, and no file goes but the oldest when there is no room. -/
theorem log_rotation_keeps_suffix (host : Host) (files : Files) (name : String)
    (husable : Usable host name) (count maxLogfiles : Nat) (sizePerLogfile : UInt64)
    (hmax : 1 ≤ maxLogfiles) (hcontiguous : Contiguous files name count)
    (hcount : count ≤ maxLogfiles) (actions : List Action) :
    ∃ first final, start host files name count maxLogfiles sizePerLogfile = some first ∧
      run (step host) first actions = some final ∧ Sound name maxLogfiles final ∧
      ∀ action, ∃ next, step host final action = some next ∧
        DropsOldest maxLogfiles final.archive next.archive := by
  have hbounded : (archived files name count).rotated.length ≤ maxLogfiles :=
    Nat.le_trans (Nat.le_of_eq (archived_length files name count)) hcount
  obtain ⟨state, hconstruct, hwrites⟩ := writes_of_construct husable hmax sizePerLogfile []
    rfl (archived_rotated hcontiguous) hbounded
  have hstart : start host files name count maxLogfiles sizePerLogfile =
      some ⟨state, archived files name count, concatenated files name count⟩ := by
    simp only [start, hconstruct, Option.bind_eq_bind, Option.bind_some]
    rfl
  have heverything : (archived files name count).everything = concatenated files name count := by
    have hconcatenated := concatenated_eq (archived_rotated hcontiguous)
    rw [archived_length] at hconcatenated
    exact hconcatenated.symm
  have hfirst : Inv name maxLogfiles sizePerLogfile
      ⟨state, archived files name count, concatenated files name count⟩ := ⟨hwrites, heverything⟩
  have hstep : ∀ system action, True → Inv name maxLogfiles sizePerLogfile system →
      ∃ next, step host system action = some next ∧
        Inv name maxLogfiles sizePerLogfile next := by
    intro system action _ hinv
    obtain ⟨next, hnext, hinvNext, -⟩ := hinv.step husable hmax action
    exact ⟨next, hnext, hinvNext⟩
  obtain ⟨final, hrun, hinv⟩ :=
    run_along hstep (along_of_forall (fun _ _ => trivial) _) hfirst
  refine ⟨_, final, hstart, hrun, hinv.sound, fun action => ?_⟩
  obtain ⟨next, hnext, -, hdrops⟩ := hinv.step husable hmax action
  exact ⟨next, hnext, hdrops⟩

/-- Four lines of three bytes in files of three bytes, two of which are kept. -/
theorem log_rotation_keeps_suffix_two : ∃ first final,
    start ⟨fun _ => true, fun _ _ => true⟩ (fun _ => none) "log" 0 2 3 = some first ∧
      run (step ⟨fun _ => true, fun _ _ => true⟩) first
        [.log [1, 2, 3], .log [4, 5, 6], .restart, .log [7, 8, 9], .log [10]] = some final ∧
      concatenated final.state.files "log" 2 = [4, 5, 6, 7, 8, 9, 10] ∧
      Sound "log" 2 final := by
  have husable : Usable ⟨fun _ => true, fun _ _ => true⟩ "log" :=
    ⟨by decide, by decide, rfl, fun _ _ => rfl⟩
  have hcontiguous : Contiguous (fun _ => none) "log" 0 := fun i =>
    ⟨fun hsome => (by cases hsome), fun hi => absurd hi (Nat.not_lt_zero i)⟩
  obtain ⟨first, final, hstart, hrun, hsound, -⟩ := log_rotation_keeps_suffix _ _ _ husable 0 2 3
    (by decide) hcontiguous (by decide)
    [.log [1, 2, 3], .log [4, 5, 6], .restart, .log [7, 8, 9], .log [10]]
  refine ⟨first, final, hstart, hrun, ?_, hsound⟩
  obtain rfl : _ = first := Option.some.inj hstart
  obtain rfl : _ = final := Option.some.inj hrun
  rfl

end Libsax.Logger
