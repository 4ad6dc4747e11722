import Libsax.Lib.Renames
import Libsax.Logger.LogRotation

/-! A `log_file_writer` whose limit or name is changed: it goes on with the count of rotated files
that it had. -/
namespace Libsax.Logger.Reconfigured

open Libsax.Lib

/-- `set_max_logfiles`, with its assertion -/
def setMaxLogfiles (s : State) (amount : Nat) : Option State :=
  if amount > 0 then some { s with writer := { s.writer with maxLogfiles := amount } } else none

def setLogfileName (host : Host) (s : State) (name : String) : Option State :=
  let s := closeFile s
  openFile host { s with writer := { s.writer with logfileName := name } }

inductive Call where
  | log (line : Bytes)
  | setMaxLogfiles (amount : Nat)
  | setLogfileName (name : String)
deriving DecidableEq, Repr

def call (host : Host) (s : State) : Call → Option State
  | .log line => log host s line
  | .setMaxLogfiles amount => setMaxLogfiles s amount
  | .setLogfileName name => setLogfileName host s name

/-- `name.1` and so on, counted from 0 on -/
def slot (name : String) (i : Nat) : String := numbered name (i + 1)

def rotationCount (w : LogFileWriter) : Nat :=
  if w.currLogfiles < w.maxLogfiles then w.currLogfiles + 1 else w.currLogfiles

/-- The calls of `remove` and `rename` that a rotation makes. -/
def rotationOps (w : LogFileWriter) : List (Renames.Op String) :=
  Renames.rotation (slot w.logfileName) w.logfileName (rotationCount w - 1)

abbrev rotated (files : Files) (name : String) : Set Nat := Renames.used files (slot name)

def Oldest (files : Files) (name : String) (i : Nat) : Prop :=
  i ∈ rotated files name ∧ ∀ j ∈ rotated files name, j ≤ i

/-- What a rotation is to leave: no more rotated files than the limit, and every file except the
oldest rotated one, wherever it was moved. -/
structure Tidy (s next : State) : Prop where
  bounded : (rotated next.files s.writer.logfileName).encard ≤ s.writer.maxLogfiles
  kept : ∀ path, (s.files path).isSome →
    (∀ i, Oldest s.files s.writer.logfileName i → path ≠ slot s.writer.logfileName i) →
    ∃ place, Renames.applyAll (Renames.labels s.files) (rotationOps s.writer) place = some path ∧
      next.files place = s.files path

/-- The count fits the directory: it leads to a free slot or to the oldest rotated file, and besides
that there is room for one more. -/
structure CountFits (s : State) : Prop where
  last : rotationCount s.writer - 1 ∈ rotated s.files s.writer.logfileName →
    Oldest s.files s.writer.logfileName (rotationCount s.writer - 1)
  room : (rotated s.files s.writer.logfileName \ {rotationCount s.writer - 1}).encard <
    s.writer.maxLogfiles

/-- The state in which a rotation finds the writer. -/
def appended (s : State) (line : Bytes) : State :=
  { fwrite s line with
    writer := { (fwrite s line).writer with
      currSize := (fwrite s line).writer.currSize + UInt64.ofNat line.length } }

def Fills (s : State) (line : Bytes) : Prop :=
  (appended s line).writer.currSize ≥ (appended s line).writer.sizePerLogfile ∧
    isStream (appended s line).writer.logfileName = false

def RotatesTidily (host : Host) (s : State) : Call → Prop
  | .log line => Fills s line → ∀ next, log host s line = some next → Tidy (appended s line) next
  | _ => True

def RotatesFitting (s : State) : Call → Prop
  | .log line => Fills s line → CountFits (appended s line)
  | _ => True

def Permits (host : Host) : Prop :=
  ∀ name, name ≠ "" → isStream name = false → Usable host name

section

variable {host : Host} {s : State} {name : String} {files : Files}

private theorem slot_injective (name : String) : Function.Injective (slot name) := by
  intro i j heq
  exact Nat.succ.inj (numbered_inj.mp heq)

private theorem slot_ne (name : String) (i : Nat) : slot name i ≠ name := numbered_ne name (i + 1)

private theorem rename_apply (hrenames : ∀ source target, host.renames source target = true)
    (files : Files) (source target : String) :
    rename host files source target = Renames.Op.apply files (.rename source target) := by
  cases hsource : files source with
  | none => simp only [rename, Renames.Op.apply, hsource]
  | some content =>
    simp only [rename, Renames.Op.apply, hsource, if_pos (hrenames source target)]

private theorem cascade_apply (hrenames : ∀ source target, host.renames source target = true)
    (name : String) (last : Nat) (files : Files) :
    cascade host name last files (slot name last) =
      (Renames.applyAll files (Renames.shift (slot name) last), slot name 0) := by
  induction last generalizing files with
  | zero => rfl
  | succ last ih =>
    have hloop := ih (rename host files (numbered name (last + 1)) (slot name (last + 1)))
    rw [rename_apply hrenames] at hloop
    rw [cascade, rename_apply hrenames]
    exact hloop

private theorem tidy_iff {next : State} (hcurrent : (s.files s.writer.logfileName).isSome)
    (hnext : next.files = Function.update (Renames.applyAll s.files (rotationOps s.writer))
      s.writer.logfileName (some [])) : Tidy s next ↔ CountFits s := by
  have hslot := slot_injective s.writer.logfileName
  have htop := slot_ne s.writer.logfileName
  have hused : rotated next.files s.writer.logfileName =
      rotated (Renames.applyAll s.files (rotationOps s.writer)) s.writer.logfileName := by
    ext i
    rw [Renames.mem_used, Renames.mem_used, hnext, Function.update_of_ne (htop i)]
  have hcard : (rotated next.files s.writer.logfileName).encard =
      (rotated s.files s.writer.logfileName \ {rotationCount s.writer - 1}).encard + 1 := by
    rw [hused]
    exact Renames.rotation_used hslot htop hcurrent
  constructor
  · rintro ⟨hbounded, hkept⟩
    rw [hcard, ENat.add_one_le_natCast_iff] at hbounded
    refine ⟨fun hlast => ?_, hbounded⟩
    by_contra hnot
    obtain ⟨place, hplace, -⟩ := hkept (slot s.writer.logfileName (rotationCount s.writer - 1))
      hlast fun i hi heq => hnot (hslot heq ▸ hi)
    exact Renames.rotation_loses hslot htop place hplace
  · rintro ⟨hlast, hroom⟩
    constructor
    · rw [hcard, ENat.add_one_le_natCast_iff]
      exact hroom
    · intro path hpath hother
      have hne : path ≠ slot s.writer.logfileName (rotationCount s.writer - 1) := by
        rintro rfl
        exact hother _ (hlast hpath) rfl
      obtain ⟨place, hplace, hkept⟩ := Renames.rotation_keeps hslot htop hne
      refine ⟨place, ?_, ?_⟩
      · rw [rotationOps, hkept (Renames.labels s.files)]
        obtain ⟨content, hcontent⟩ := Option.isSome_iff_exists.mp hpath
        unfold Renames.labels
        rw [hcontent]
        rfl
      · rw [hnext, Function.update_of_ne hplace]
        exact hkept s.files

structure Opened (s : State) : Prop where
  named : s.writer.logfileName ≠ ""
  limited : 1 ≤ s.writer.maxLogfiles
  file : isStream s.writer.logfileName = false →
    s.writer.currLogfile = .file s.writer.logfileName ∧ (s.files s.writer.logfileName).isSome

private theorem opened_of_openFile (hhost : Permits host) (hname : s.writer.logfileName ≠ "")
    (hmax : 1 ≤ s.writer.maxLogfiles) : ∃ next, openFile host s = some next ∧ Opened next := by
  cases hstream : isStream s.writer.logfileName with
  | true =>
    unfold openFile
    rw [if_neg hname, if_pos hstream]
    exact ⟨_, rfl, hname, hmax, fun hfile => absurd (hstream.symm.trans hfile) (by decide)⟩
  | false =>
    have hopens := (hhost _ hname hstream).opens
    refine ⟨_, openFile_eq hopens hname hstream, hname, hmax, fun _ => ⟨rfl, ?_⟩⟩
    dsimp only
    rw [Function.update_self]
    rfl

private theorem rotationCount_pos (hmax : 1 ≤ s.writer.maxLogfiles) :
    1 ≤ rotationCount s.writer := by
  unfold rotationCount
  split_ifs <;> omega

private theorem rotate_opened (hhost : Permits host) (hopened : Opened s)
    (hfile : isStream s.writer.logfileName = false) :
    ∃ next, rotate host s = some next ∧ Opened next ∧
      next.files = Function.update (Renames.applyAll s.files (rotationOps s.writer))
        s.writer.logfileName (some []) := by
  have husable := hhost _ hopened.named hfile
  obtain ⟨hhandle, hcurrent⟩ := hopened.file hfile
  have hpos := rotationCount_pos hopened.limited
  have hopen : ¬(s.writer.currLogfile = .null ∨ isStream s.writer.logfileName = true) := by
    rw [hhandle, hfile]
    rintro (h | h) <;> cases h
  have hlast : numbered s.writer.logfileName (rotationCount s.writer) =
      slot s.writer.logfileName (rotationCount s.writer - 1) := by
    unfold slot
    rw [Nat.sub_add_cancel hpos]
  have hcascade := cascade_apply husable.renames s.writer.logfileName (rotationCount s.writer - 1)
    (remove s.files (slot s.writer.logfileName (rotationCount s.writer - 1)))
  have hclose : ∀ files count,
      closeFile { s with files := files, writer := { s.writer with currLogfiles := count } } =
        { s with
          files := files
          writer := { s.writer with currLogfiles := count, currLogfile := .null } } :=
    fun _ _ => closeFile_eq hhandle hfile
  have hrotate : rotate host s = openFile host { s with
      files := Renames.applyAll s.files (rotationOps s.writer)
      writer := { s.writer with
        currLogfiles := rotationCount s.writer
        currLogfile := .null } } := by
    have hops : Renames.applyAll s.files (rotationOps s.writer) = Renames.Op.apply
        (Renames.applyAll (remove s.files (slot s.writer.logfileName (rotationCount s.writer - 1)))
          (Renames.shift (slot s.writer.logfileName) (rotationCount s.writer - 1)))
        (.rename s.writer.logfileName (slot s.writer.logfileName 0)) := by
      unfold rotationOps Renames.rotation Renames.applyAll
      rw [List.foldl_cons, List.foldl_append]
      rfl
    have hcount : (if s.writer.currLogfiles < s.writer.maxLogfiles then s.writer.currLogfiles + 1
        else s.writer.currLogfiles) = rotationCount s.writer := rfl
    unfold rotate
    simp only [if_neg hopen, hcount, hlast, hcascade, hclose, rename_apply husable.renames, hops]
  have hgone : Renames.applyAll s.files (rotationOps s.writer) s.writer.logfileName = none :=
    (Renames.rotation_spec (slot_injective _) (slot_ne _) s.files _).1
  rw [hrotate]
  refine ⟨_, openFile_eq husable.opens hopened.named hfile, ?_, ?_⟩
  · refine ⟨hopened.named, hopened.limited, fun _ => ⟨rfl, ?_⟩⟩
    dsimp only
    rw [Function.update_self]
    rfl
  · dsimp only
    rw [hgone]
    rfl

@[simp] private theorem appended_writer (s : State) (line : Bytes) : (appended s line).writer =
    { s.writer with currSize := s.writer.currSize + UInt64.ofNat line.length } := by
  have hwriter : (fwrite s line).writer = s.writer := by
    unfold fwrite
    split <;> rfl
  unfold appended
  rw [hwriter]

theorem Opened.appended (hopened : Opened s) (line : Bytes) :
    Opened (Reconfigured.appended s line) := by
  have hwriter := appended_writer s line
  constructor
  · rw [hwriter]
    exact hopened.named
  · rw [hwriter]
    exact hopened.limited
  · rw [hwriter]
    intro hfile
    obtain ⟨hhandle, hcurrent⟩ := hopened.file hfile
    refine ⟨hhandle, ?_⟩
    unfold Reconfigured.appended fwrite
    rw [hhandle]
    dsimp only
    rw [Function.update_self, Option.isSome_map]
    exact hcurrent

private theorem log_eq (host : Host) (s : State) (line : Bytes) : log host s line =
    if (appended s line).writer.currSize ≥ (appended s line).writer.sizePerLogfile then
      rotate host (appended s line)
    else some (appended s line) := rfl

private theorem log_unfilled {line : Bytes} (hopened : Opened s) (hfills : ¬Fills s line)
    {next : State}
    (hlog : log host s line = some next) : Opened next := by
  have happended := hopened.appended line
  rw [log_eq] at hlog
  split_ifs at hlog with hsize
  · have hstream : isStream (Reconfigured.appended s line).writer.logfileName = true := by
      rw [← Bool.not_eq_false]
      exact fun hfile => hfills ⟨hsize, hfile⟩
    unfold rotate at hlog
    dsimp only at hlog
    rw [if_pos (Or.inr hstream)] at hlog
    obtain rfl := Option.some.inj hlog
    exact ⟨happended.named, happended.limited, happended.file⟩
  · exact Option.some.inj hlog ▸ happended

/-- Whatever is called, the writer keeps its file open, and a rotation is tidy exactly if it finds a
count that fits. -/
theorem Opened.call (hhost : Permits host) (hopened : Opened s) (action : Call) :
    (RotatesTidily host s action ↔ RotatesFitting s action) ∧
      ∀ next, Reconfigured.call host s action = some next → Opened next := by
  cases action with
  | log line =>
    have happended := hopened.appended line
    by_cases hfills : Fills s line
    · obtain ⟨next, hrotate, hnext, hfiles⟩ := rotate_opened hhost happended hfills.2
      have hlog : log host s line = some next := by rw [log_eq, if_pos hfills.1, hrotate]
      have htidy := tidy_iff (happended.file hfills.2).2 hfiles
      refine ⟨?_, fun other hother => ?_⟩
      · constructor
        · exact fun htidily _ => htidy.mp (htidily hfills next hlog)
        · intro hfitting _ other hother
          obtain rfl := Option.some.inj (hlog.symm.trans hother)
          exact htidy.mpr (hfitting hfills)
      · obtain rfl := Option.some.inj (hlog.symm.trans hother)
        exact hnext
    · exact ⟨iff_of_true (fun h => absurd h hfills) (fun h => absurd h hfills),
        fun next hnext => log_unfilled hopened hfills hnext⟩
  | setMaxLogfiles amount =>
    refine ⟨Iff.rfl, fun next hnext => ?_⟩
    unfold Reconfigured.call setMaxLogfiles at hnext
    dsimp only at hnext
    split_ifs at hnext with hamount
    obtain rfl := Option.some.inj hnext
    exact ⟨hopened.named, hamount, hopened.file⟩
  | setLogfileName name =>
    refine ⟨Iff.rfl, fun next hnext => ?_⟩
    have hmax : (closeFile s).writer.maxLogfiles = s.writer.maxLogfiles := by
      unfold closeFile
      split_ifs <;> rfl
    have hname : name ≠ "" := by
      rintro rfl
      exact Option.some_ne_none _ hnext.symm
    obtain ⟨other, hother, hopenedOther⟩ := opened_of_openFile hhost
      (s := { closeFile s with writer := { (closeFile s).writer with logfileName := name } })
      hname (hmax ▸ hopened.limited)
    obtain rfl := Option.some.inj (hother.symm.trans hnext)
    exact hopenedOther

private theorem along_iff (hhost : Permits host) (hopened : Opened s) (calls : List Call) :
    Along (call host) (RotatesTidily host) s calls ↔ Along (call host) RotatesFitting s calls := by
  induction calls generalizing s with
  | nil => exact Iff.rfl
  | cons action rest ih =>
    obtain ⟨hsame, hnext⟩ := hopened.call hhost action
    unfold Along
    rw [hsame]
    constructor
    · exact fun hall => ⟨hall.1, fun next hcall => (ih (hnext next hcall)).mp (hall.2 next hcall)⟩
    · exact fun hall => ⟨hall.1, fun next hcall => (ih (hnext next hcall)).mpr (hall.2 next hcall)⟩

private theorem rotated_contiguous {count : Nat} (hcontiguous : Contiguous files name count) :
    rotated files name = ↑(Finset.range count) := by
  ext i
  rw [Finset.mem_coe, Finset.mem_range]
  exact hcontiguous i

private theorem countFits_contiguous {count : Nat} (hmax : 1 ≤ s.writer.maxLogfiles)
    (hcontiguous : Contiguous s.files s.writer.logfileName count) :
    CountFits s ↔
      if s.writer.currLogfiles < s.writer.maxLogfiles then count ≤ s.writer.currLogfiles + 1
      else count < s.writer.maxLogfiles ∨
        count = s.writer.maxLogfiles ∧ s.writer.currLogfiles = s.writer.maxLogfiles := by
  have hpos := rotationCount_pos hmax
  have hrotated := rotated_contiguous hcontiguous
  have hmem : ∀ i, i ∈ rotated s.files s.writer.logfileName ↔ i < count := hcontiguous
  have hlast : (rotationCount s.writer - 1 ∈ rotated s.files s.writer.logfileName →
      Oldest s.files s.writer.logfileName (rotationCount s.writer - 1)) ↔
        (rotationCount s.writer - 1 < count → count ≤ rotationCount s.writer) := by
    unfold Oldest
    simp only [hmem]
    constructor
    · intro hall hlt
      have hle := (hall hlt).2 (count - 1) (by omega)
      omega
    · exact fun hle hlt => ⟨hlt, fun j hj => by have hcount := hle hlt; omega⟩
  have hroom : (rotated s.files s.writer.logfileName \ {rotationCount s.writer - 1}).encard =
      (if rotationCount s.writer - 1 < count then count - 1 else count : Nat) := by
    rw [hrotated, ← Finset.coe_singleton, ← Finset.coe_sdiff, Set.encard_coe_eq_coe_finsetCard,
      Finset.sdiff_singleton_eq_erase]
    split_ifs with hlt
    · rw [Finset.card_erase_of_mem (Finset.mem_range.mpr hlt), Finset.card_range]
    · rw [Finset.erase_eq_of_notMem (fun hin => hlt (Finset.mem_range.mp hin)), Finset.card_range]
  have hboth : CountFits s ↔
      (rotationCount s.writer - 1 < count → count ≤ rotationCount s.writer) ∧
        (if rotationCount s.writer - 1 < count then count - 1 else count) <
          s.writer.maxLogfiles := by
    rw [← hlast, ← ENat.natCast_lt_natCast, ← hroom]
    exact ⟨fun hfits => ⟨hfits.last, hfits.room⟩, fun hfits => ⟨hfits.1, hfits.2⟩⟩
  rw [hboth]
  unfold rotationCount
  split_ifs <;> omega

end

/-- In every history, the rotations are tidy exactly as long as each one finds a count that fits. -/
theorem rotations_tidy_iff {host : Host} (hhost : Permits host) (files : Files) {name : String}
    (hname : name ≠ "") {maxLogfiles : Nat} (hmax : 1 ≤ maxLogfiles) (sizePerLogfile : UInt64)
    (calls : List Call) :
    ∃ first, construct host files [] name maxLogfiles sizePerLogfile = some first ∧
      (Along (call host) (RotatesTidily host) first calls ↔
        Along (call host) RotatesFitting first calls) := by
  obtain ⟨first, hfirst, hopened⟩ : ∃ first,
      construct host files [] name maxLogfiles sizePerLogfile = some first ∧ Opened first :=
    opened_of_openFile hhost hname hmax
  exact ⟨first, hfirst, along_iff hhost hopened calls⟩

def permissive : Host := ⟨fun _ => true, fun _ _ => true⟩

private theorem permits_permissive : Permits permissive := fun _ hname hfile =>
  ⟨hname, hfile, rfl, fun _ _ => rfl⟩

def directory (name : String) (count : Nat) : Files := fun path =>
  if path ∈ (List.range count).map (slot name) then some [] else none

private theorem directory_contiguous (name : String) (count : Nat) :
    Contiguous (directory name count) name count := by
  intro i
  have hmem : numbered name (i + 1) ∈ (List.range count).map (slot name) ↔ i < count := by
    rw [List.mem_map]
    constructor
    · rintro ⟨j, hj, heq⟩
      exact slot_injective name heq ▸ List.mem_range.mp hj
    · exact fun hi => ⟨i, List.mem_range.mpr hi, rfl⟩
  unfold directory
  split_ifs with hin
  · exact iff_of_true rfl (hmem.mp hin)
  · exact iff_of_false Bool.false_ne_true (fun hi => hin (hmem.mpr hi))

/-- The limit is raised, the name is changed, and the files are filled. -/
theorem rotations_tidy_iff_renamed : ∃ first,
    construct permissive (directory "log" 2) [] "log" 2 3 = some first ∧
      (Along (call permissive) (RotatesTidily permissive) first
          [.log [1, 2, 3], .setMaxLogfiles 4, .log [4, 5, 6], .setLogfileName "err", .log [7]] ↔
        Along (call permissive) RotatesFitting first
          [.log [1, 2, 3], .setMaxLogfiles 4, .log [4, 5, 6], .setLogfileName "err", .log [7]]) :=
  rotations_tidy_iff permits_permissive _ (by decide) (by decide) 3 _

/-- With three rotated files, the limit is lowered to two. -/
theorem not_tidy_lowered : Contiguous (directory "log" 3) "log" 3 ∧
    ∃ first, construct permissive (directory "log" 3) [] "log" 3 3 = some first ∧
      ¬Along (call permissive) (RotatesTidily permissive) first
        [.setMaxLogfiles 2, .log [1, 2, 3]] := by
  have hdirectory := directory_contiguous "log" 3
  refine ⟨hdirectory, ⟨⟨3, 3, "log", 2, 0, .file "log"⟩,
    Function.update (directory "log" 3) "log" (some []), []⟩, rfl, fun htidy => ?_⟩
  have hopened : Opened ⟨⟨3, 3, "log", 2, 0, .file "log"⟩,
      Function.update (directory "log" 3) "log" (some []), []⟩ :=
    ⟨by decide, by decide, fun _ => ⟨rfl, rfl⟩⟩
  obtain ⟨-, hrest⟩ := (along_iff permits_permissive hopened _).mp htidy
  have hfits := (hrest ⟨⟨2, 3, "log", 2, 0, .file "log"⟩,
    Function.update (directory "log" 3) "log" (some []), []⟩ rfl).1 ⟨by decide, rfl⟩
  have hcontiguous : Contiguous (appended ⟨⟨2, 3, "log", 2, 0, .file "log"⟩,
      Function.update (directory "log" 3) "log" (some []), []⟩ [1, 2, 3]).files "log" 3 := by
    intro i
    rw [← hdirectory i]
    unfold appended fwrite
    dsimp only
    rw [Function.update_of_ne (numbered_ne "log" (i + 1)),
      Function.update_of_ne (numbered_ne "log" (i + 1))]
  have hcount := (countFits_contiguous (by decide) hcontiguous).mp hfits
  exact absurd hcount (by decide)

end Libsax.Logger.Reconfigured
