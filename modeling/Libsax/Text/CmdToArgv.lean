import Libsax.Lib.Cells
import Libsax.Lib.Run
import Libsax.Text.SplitJoin

/-! `g_cmd_to_argv`: a command line is cut into arguments, whose pointers and characters go
into one allocated block. -/
namespace Libsax.Text.CmdToArgv

open Libsax.Lib

def quote : UInt8 := 34

/-- `' '`, `'\t'`, `'\n'` and `'\r'` -/
def isBlank (char : UInt8) : Bool := char == 32 || char == 9 || char == 10 || char == 13

/-- How many pointers and characters there is room for. -/
structure Room where
  slots : Nat
  chars : Nat

/-- The block, of which the first `i` bytes are for the pointers, `i` and `len` being of type
`int`. There is no room when the computation of `len + 2` overflows or `line` is in front of
the block. -/
def room (length : Nat) : Option Room :=
  let len := toInt length
  if len + 2 ≥ 2 ^ 31 then none
  else
    let i := (Int.tdiv (len + 2) 2 * 8 + 8).bmod (2 ^ 32)
    if i < 0 then none
    else some ⟨i.toNat / 8, ((i + (len + 2)) % 2 ^ 64).toNat - i.toNat⟩

/-- `argv` holds positions in `line`; `c` and `j` are the lengths of the two. -/
structure Scan where
  inQuot : Bool
  inSpace : Bool
  argv : List Nat
  line : List UInt8

namespace Scan

/-- `argv[c++] = line+j`; `none` stands for a store outside the block. -/
def begin (room : Room) (s : Scan) : Option Scan :=
  if s.argv.length < room.slots then some { s with argv := s.argv ++ [s.line.length] } else none

def put (room : Room) (s : Scan) (char : UInt8) : Option Scan :=
  if s.line.length < room.chars then some { s with line := s.line ++ [char] } else none

end Scan

def step (room : Room) (s : Scan) (char : UInt8) : Option Scan :=
  if s.inQuot then
    if char = quote then some { s with inQuot := false } else s.put room char
  else if char = quote then do
    let s ← if s.inSpace then s.begin room else some s
    some { s with inQuot := true, inSpace := false }
  else if isBlank char then do
    let s ← if !s.inSpace then s.put room 0 else some s
    some { s with inSpace := true }
  else do
    let s ← if s.inSpace then s.begin room else some s
    let s ← s.put room char
    some { s with inSpace := false }

/-- The stores before the loop; the one in `argv[0]` is made anew later. -/
def start (room : Room) : Option Scan :=
  if 0 < room.slots then some ⟨false, true, [], []⟩ else none

/-- The stores behind the loop, of a zero and of `NULL`. -/
def finish (room : Room) (s : Scan) : Option Scan := do
  let s ← s.put room 0
  if s.argv.length < room.slots then some s else none

/-- `g_cmd_to_argv`; `*argc` is the length of `argv`. -/
def gCmdToArgv (cmd : CString) : Option Scan := do
  let room ← room cmd.chars.length
  let s ← start room
  let s ← run (step room) s cmd.chars
  finish room s

def arguments (s : Scan) : List (List UInt8) :=
  s.argv.map fun first => (s.line.drop first).takeWhile (· ≠ 0)

def quoted (argument : CString) : List UInt8 := quote :: (argument.chars ++ [quote])

/-- For commands of some length: no store is outside the block, and arguments that were put
between quotes and joined with blanks are found again. -/
structure Parses (length : Nat) : Prop where
  inside : ∀ cmd : CString, cmd.chars.length = length → (gCmdToArgv cmd).isSome
  found : ∀ (cmd : CString) (args : List CString) (sep : List UInt8), cmd.chars.length = length →
    (∀ argument ∈ args, quote ∉ argument.chars) → sep ≠ [] →
    (∀ char ∈ sep, isBlank char = true) → cmd.chars = StrUtil.join (args.map quoted) sep →
      (gCmdToArgv cmd).map arguments = some (args.map CString.chars)

private theorem room_of_lt {length : Nat} (hlt : length < 2 ^ 29 - 4) :
    room length = some ⟨(length + 2) / 2 + 1, length + 2⟩ := by
  have hlen : toInt length = length := toInt_of_lt (by omega)
  have hhalf : Int.tdiv ((length : Int) + 2) 2 = ((length + 2) / 2 : Nat) := by
    rw [Int.tdiv_eq_ediv_of_nonneg (by omega)]
    omega
  have hoffset : ((((length + 2) / 2 : Nat) : Int) * 8 + 8).bmod (2 ^ 32) =
      ((8 * ((length + 2) / 2 + 1) : Nat) : Int) := by
    rw [Int.bmod_eq_of_le (by omega) (by omega)]
    omega
  have htotal : ((8 * ((length + 2) / 2 + 1) : Nat) : Int) + ((length : Int) + 2) =
      ((8 * ((length + 2) / 2 + 1) + (length + 2) : Nat) : Int) := by omega
  unfold room
  simp only [hlen, hhalf, hoffset, htotal]
  rw [if_neg (by omega), if_neg (by omega), Int.emod_eq_of_lt (by omega) (by omega)]
  simp only [Int.toNat_natCast, Option.some.injEq, Room.mk.injEq]
  omega

private theorem room_slots_lt {length : Nat} {r : Room} (hroom : room length = some r) :
    r.slots < 2 ^ 28 := by
  have hbound : ∀ i : Int, i.bmod (2 ^ 32) < 2 ^ 31 := fun i => Int.bmod_lt (by decide)
  have hlt := hbound (Int.tdiv (toInt length + 2) 2 * 8 + 8)
  unfold room at hroom
  dsimp only at hroom
  split_ifs at hroom
  obtain rfl := Option.some.inj hroom
  dsimp only
  omega

private theorem room_eq_none {length : Nat} (hle : 2 ^ 29 - 4 ≤ length)
    (hlt : length < 2 ^ 29 - 2) :
    room length = none := by
  have hlen : toInt length = length := toInt_of_lt (by omega)
  have hhalf : Int.tdiv ((length : Int) + 2) 2 = 2 ^ 28 - 1 := by
    rw [Int.tdiv_eq_ediv_of_nonneg (by omega)]
    omega
  have hoffset : ((2 ^ 28 - 1 : Int) * 8 + 8).bmod (2 ^ 32) = -2 ^ 31 := by decide
  unfold room
  simp only [hlen, hhalf, hoffset]
  rw [if_neg (by omega), if_pos (by decide)]

/-- After `n` characters: an argument takes two of them, but for the one that is read. -/
structure Scanned (n : Nat) (s : Scan) : Prop where
  argv : 2 * s.argv.length ≤ if s.inSpace then n else n + 1
  line : s.line.length ≤ n

variable {r : Room} {n : Nat}

theorem put_eq {s : Scan} (hlt : s.line.length < r.chars) (char : UInt8) :
    s.put r char = some { s with line := s.line ++ [char] } := if_pos hlt

private theorem begin_eq {s : Scan} (hlt : s.argv.length < r.slots) :
    s.begin r = some { s with argv := s.argv ++ [s.line.length] } := if_pos hlt

private theorem step_scanned {s : Scan} (hslots : n < 2 * r.slots) (hchars : n < r.chars)
    (hscanned : Scanned n s) (char : UInt8) :
    ∃ next, step r s char = some next ∧ Scanned (n + 1) next := by
  obtain ⟨inQuot, inSpace, argv, line⟩ := s
  obtain ⟨hargv, hline⟩ := hscanned
  dsimp only at hargv hline
  have hkeep : 2 * argv.length ≤ if inSpace then n + 1 else n + 1 + 1 := by
    split_ifs at hargv ⊢ <;> omega
  have hput : line.length < r.chars := Nat.lt_of_le_of_lt hline hchars
  have hlonger : ∀ byte : UInt8, (line ++ [byte]).length ≤ n + 1 := fun byte => by
    rw [List.length_append, List.length_singleton]
    omega
  have hbegin : inSpace = true → argv.length < r.slots ∧
      2 * (argv ++ [line.length]).length ≤ n + 1 + 1 := by
    intro hspace
    rw [if_pos hspace] at hargv
    rw [List.length_append, List.length_singleton]
    omega
  unfold step
  dsimp only
  by_cases hinQuot : inQuot = true
  · rw [if_pos hinQuot]
    by_cases hquote : char = quote
    · rw [if_pos hquote]
      exact ⟨_, rfl, hkeep, Nat.le_succ_of_le hline⟩
    · rw [if_neg hquote, put_eq hput]
      exact ⟨_, rfl, hkeep, hlonger char⟩
  · rw [if_neg hinQuot]
    cases inSpace with
    | true =>
      obtain ⟨hslot, hmore⟩ := hbegin rfl
      by_cases hquote : char = quote
      · rw [if_pos hquote, if_pos rfl, begin_eq hslot]
        exact ⟨_, rfl, hmore, Nat.le_succ_of_le hline⟩
      · rw [if_neg hquote]
        by_cases hblank : isBlank char = true
        · rw [if_pos hblank]
          exact ⟨_, rfl, hkeep, Nat.le_succ_of_le hline⟩
        · rw [if_neg hblank, if_pos rfl, begin_eq hslot, Option.bind_eq_bind, Option.bind_some,
            put_eq hput]
          exact ⟨_, rfl, hmore, hlonger char⟩
    | false =>
      have hless : 2 * argv.length ≤ n + 1 := hargv
      by_cases hquote : char = quote
      · rw [if_pos hquote]
        exact ⟨_, rfl, Nat.le_succ_of_le hless, Nat.le_succ_of_le hline⟩
      · rw [if_neg hquote]
        by_cases hblank : isBlank char = true
        · rw [if_pos hblank, Bool.not_false, if_pos rfl, put_eq hput]
          exact ⟨_, rfl, hless, hlonger 0⟩
        · rw [if_neg hblank, if_neg Bool.false_ne_true, Option.bind_eq_bind, Option.bind_some,
            put_eq hput]
          exact ⟨_, rfl, Nat.le_succ_of_le hless, hlonger char⟩

private theorem run_scanned {s : Scan} {chars : List UInt8}
    (hslots : n + chars.length ≤ 2 * r.slots)
    (hchars : n + chars.length ≤ r.chars) (hscanned : Scanned n s) :
    ∃ next, run (step r) s chars = some next ∧ Scanned (n + chars.length) next := by
  induction chars generalizing n s with
  | nil => exact ⟨s, rfl, hscanned⟩
  | cons char chars ih =>
    rw [List.length_cons] at hslots hchars ⊢
    obtain ⟨middle, hstep, hmiddle⟩ :=
      @step_scanned r n s (by omega) (by omega) hscanned char
    obtain ⟨next, hrun, hnext⟩ := ih (by omega) (by omega) hmiddle
    have hlength : n + (chars.length + 1) = n + 1 + chars.length := by omega
    rw [hlength]
    exact ⟨next, run_cons_eq_some.mpr ⟨middle, hstep, hrun⟩, hnext⟩

private theorem exists_gCmdToArgv {cmd : CString} (hlt : cmd.chars.length < 2 ^ 29 - 4) :
    ∃ s, run (step ⟨(cmd.chars.length + 2) / 2 + 1, cmd.chars.length + 2⟩) ⟨false, true, [], []⟩
        cmd.chars = some s ∧
      gCmdToArgv cmd = some { s with line := s.line ++ [0] } := by
  have hstart : Scanned 0 ⟨false, true, [], []⟩ := ⟨le_refl 0, le_refl 0⟩
  obtain ⟨s, hrun, hscanned⟩ := @run_scanned
    ⟨(cmd.chars.length + 2) / 2 + 1, cmd.chars.length + 2⟩ 0 _ cmd.chars
      (by dsimp only; omega) (by dsimp only; omega) hstart
  rw [Nat.zero_add] at hscanned
  have hline := hscanned.line
  have hargv : 2 * s.argv.length ≤ cmd.chars.length + 1 := by
    have hbound := hscanned.argv
    split_ifs at hbound <;> omega
  refine ⟨s, hrun, ?_⟩
  unfold gCmdToArgv
  rw [room_of_lt hlt]
  simp only [Option.bind_eq_bind, Option.bind_some, start]
  rw [if_pos (Nat.succ_pos _), Option.bind_some, hrun, Option.bind_some, finish,
    put_eq (by dsimp only; omega), Option.bind_eq_bind, Option.bind_some,
    if_pos (by dsimp only; omega)]

/-- Where the arguments begin, when the first one begins at a position and each ends with a
zero. -/
def offsets : Nat → List CString → List Nat
  | _, [] => []
  | first, argument :: args => first :: offsets (first + argument.chars.length + 1) args

def packed (args : List CString) : List UInt8 := args.flatMap fun argument => argument.chars ++ [0]

@[simp] private theorem takeWhile_chars (argument : CString) (back : List UInt8) :
    (argument.chars ++ 0 :: back).takeWhile (· ≠ 0) = argument.chars := by
  rw [List.takeWhile_append_of_pos]
  · simp
  · intro char hchar
    exact decide_eq_true (argument.chars_ne_zero char hchar)

private theorem arguments_packed (front : List UInt8) (args : List CString) :
    ((offsets front.length args).map fun first =>
      ((front ++ packed args).drop first).takeWhile (· ≠ 0)) = args.map CString.chars := by
  induction args generalizing front with
  | nil => rfl
  | cons argument args ih =>
    have hpacked : packed (argument :: args) = argument.chars ++ 0 :: packed args := by
      rw [packed, List.flatMap_cons, ← packed, List.append_assoc]
      rfl
    have hnext := ih (front ++ argument.chars ++ [0])
    have hlength : (front ++ argument.chars ++ [0]).length =
        front.length + argument.chars.length + 1 := by
      simp only [List.length_append, List.length_singleton]
    have hsplit : front ++ argument.chars ++ [0] ++ packed args =
        front ++ packed (argument :: args) := by
      rw [hpacked]
      simp only [List.append_assoc, List.cons_append, List.nil_append]
    rw [hlength, hsplit] at hnext
    rw [offsets, List.map_cons, List.map_cons, hnext, List.drop_left, hpacked, takeWhile_chars]

private theorem run_inside {s next : Scan} {chars : List UInt8} (hquot : s.inQuot = true)
    (hchars : quote ∉ chars) (hrun : run (step r) s chars = some next) :
    next = { s with line := s.line ++ chars } := by
  induction chars generalizing s with
  | nil =>
    rw [List.append_nil]
    exact (Option.some.inj hrun).symm
  | cons char chars ih =>
    obtain ⟨middle, hstep, hrest⟩ := run_cons_eq_some.mp hrun
    obtain ⟨hne, hlater⟩ := not_or.mp (mt List.mem_cons.mpr hchars)
    rw [step, if_pos hquot, if_neg (Ne.symm hne), Scan.put] at hstep
    split_ifs at hstep
    obtain rfl := Option.some.inj hstep
    rw [@ih { s with line := s.line ++ [char] } hquot hlater hrest, List.append_assoc]
    rfl

private theorem blank_ne_quote {char : UInt8} (hblank : isBlank char = true) : char ≠ quote := by
  rintro rfl
  cases hblank

private theorem run_blanks {argv : List Nat} {line chars : List UInt8} {next : Scan}
    (hblank : ∀ char ∈ chars, isBlank char = true)
    (hrun : run (step r) ⟨false, true, argv, line⟩ chars = some next) :
    next = ⟨false, true, argv, line⟩ := by
  induction chars with
  | nil => exact (Option.some.inj hrun).symm
  | cons char chars ih =>
    obtain ⟨hhead, hlater⟩ := List.forall_mem_cons.mp hblank
    obtain ⟨middle, hstep, hrest⟩ := run_cons_eq_some.mp hrun
    rw [step, if_neg Bool.false_ne_true, if_neg (blank_ne_quote hhead), if_pos hhead] at hstep
    obtain rfl := Option.some.inj hstep
    exact ih hlater hrest

private theorem run_sep {argv : List Nat} {line sep : List UInt8} {next : Scan} (hsep : sep ≠ [])
    (hblank : ∀ char ∈ sep, isBlank char = true)
    (hrun : run (step r) ⟨false, false, argv, line⟩ sep = some next) :
    next = ⟨false, true, argv, line ++ [0]⟩ := by
  obtain ⟨char, more, rfl⟩ := List.exists_cons_of_ne_nil hsep
  obtain ⟨hhead, hlater⟩ := List.forall_mem_cons.mp hblank
  obtain ⟨middle, hstep, hrest⟩ := run_cons_eq_some.mp hrun
  rw [step, if_neg Bool.false_ne_true, if_neg (blank_ne_quote hhead), if_pos hhead, Bool.not_false,
    if_pos rfl, Scan.put] at hstep
  split_ifs at hstep
  · obtain rfl := Option.some.inj hstep
    exact run_blanks hlater hrest
  · cases hstep

private theorem run_quoted {argv : List Nat} {line : List UInt8} {argument : CString} {next : Scan}
    (hargument : quote ∉ argument.chars)
    (hrun : run (step r) ⟨false, true, argv, line⟩ (quoted argument) = some next) :
    next = ⟨false, false, argv ++ [line.length], line ++ argument.chars⟩ := by
  obtain ⟨opened, hopen, hrest⟩ := run_cons_eq_some.mp hrun
  rw [step, if_neg Bool.false_ne_true, if_pos rfl, if_pos rfl, Scan.begin] at hopen
  split_ifs at hopen
  · obtain rfl := Option.some.inj hopen
    rw [run_append] at hrest
    obtain ⟨inside, hinside, hclose⟩ := Option.bind_eq_some_iff.mp hrest
    obtain rfl := run_inside rfl hargument hinside
    exact (Option.some.inj hclose).symm
  · cases hopen

private theorem run_args {argv : List Nat} {line sep : List UInt8} {argument : CString}
    {args : List CString} {next : Scan} (hsep : sep ≠ [])
    (hblank : ∀ char ∈ sep, isBlank char = true)
    (hargs : ∀ other ∈ argument :: args, quote ∉ other.chars)
    (hrun : run (step r) ⟨false, true, argv, line⟩
      (quoted argument ++ StrUtil.tail (args.map quoted) sep) = some next) :
    next.argv = argv ++ offsets line.length (argument :: args) ∧
      next.line ++ [0] = line ++ packed (argument :: args) := by
  induction args generalizing argv line argument with
  | nil =>
    have hall : StrUtil.tail (List.map quoted []) sep = [] := rfl
    rw [hall, List.append_nil] at hrun
    obtain rfl := run_quoted (hargs argument List.mem_cons_self) hrun
    exact ⟨rfl, by simp [packed]⟩
  | cons other args ih =>
    obtain ⟨hargument, hlater⟩ := List.forall_mem_cons.mp hargs
    rw [List.map_cons, StrUtil.tail, List.flatMap_cons, ← StrUtil.tail, List.append_assoc,
      run_append] at hrun
    obtain ⟨closed, hclosed, hrest⟩ := Option.bind_eq_some_iff.mp hrun
    obtain rfl := run_quoted hargument hclosed
    rw [run_append] at hrest
    obtain ⟨blank, hsepRun, hfollowing⟩ := Option.bind_eq_some_iff.mp hrest
    obtain rfl := run_sep hsep hblank hsepRun
    obtain ⟨hargv, hline⟩ := ih hlater hfollowing
    have hlength : (line ++ argument.chars ++ [0]).length =
        line.length + argument.chars.length + 1 := by
      simp only [List.length_append, List.length_singleton]
    constructor
    · rw [hargv, hlength, offsets, List.append_assoc]
      rfl
    · have hpacked : packed (argument :: other :: args) =
          argument.chars ++ [0] ++ packed (other :: args) := List.flatMap_cons
      rw [hline, hpacked]
      simp only [List.append_assoc]

private theorem arguments_gCmdToArgv {cmd : CString} {args : List CString} {sep : List UInt8}
    (hlt : cmd.chars.length < 2 ^ 29 - 4) (hargs : ∀ argument ∈ args, quote ∉ argument.chars)
    (hsep : sep ≠ []) (hblank : ∀ char ∈ sep, isBlank char = true)
    (hcmd : cmd.chars = StrUtil.join (args.map quoted) sep) :
    (gCmdToArgv cmd).map arguments = some (args.map CString.chars) := by
  obtain ⟨s, hrun, hresult⟩ := exists_gCmdToArgv hlt
  rw [hresult, Option.map_some, Option.some.injEq]
  cases args with
  | nil =>
    have hnil : cmd.chars = [] := hcmd
    rw [hnil] at hrun
    obtain rfl := Option.some.inj hrun
    rfl
  | cons argument args =>
    rw [hcmd, List.map_cons, StrUtil.join_cons] at hrun
    obtain ⟨hargv, hline⟩ := run_args hsep hblank hargs hrun
    have hpacked := arguments_packed [] (argument :: args)
    rw [arguments, hargv, hline]
    exact hpacked

def alternating : Nat → List UInt8
  | 0 => []
  | 1 => [97]
  | n + 2 => 97 :: 32 :: alternating n

@[simp] private theorem alternating_length (n : Nat) : (alternating n).length = n := by
  induction n using alternating.induct with
  | case1 => rfl
  | case2 => rfl
  | case3 n ih => rw [alternating, List.length_cons, List.length_cons, ih]

private theorem alternating_ne_zero (n : Nat) : ∀ char ∈ alternating n, char ≠ 0 := by
  induction n using alternating.induct with
  | case1 => simp [alternating]
  | case2 => simp [alternating]
  | case3 n ih => simpa [alternating] using ih

private theorem run_letter {argv : List Nat} {line rest : List UInt8} {next : Scan}
    (hrun : run (step r) ⟨false, true, argv, line⟩ (97 :: rest) = some next) :
    run (step r) ⟨false, false, argv ++ [line.length], line ++ [97]⟩ rest = some next := by
  obtain ⟨middle, hstep, hrest⟩ := run_cons_eq_some.mp hrun
  rw [step, if_neg Bool.false_ne_true, if_neg (by decide), if_neg (by decide), if_pos rfl,
    Option.bind_eq_bind] at hstep
  obtain ⟨begun, hbegin, hletter⟩ := Option.bind_eq_some_iff.mp hstep
  obtain ⟨written, hput, hwritten⟩ := Option.bind_eq_some_iff.mp hletter
  rw [Scan.begin] at hbegin
  split_ifs at hbegin
  obtain rfl := Option.some.inj hbegin
  rw [Scan.put] at hput
  split_ifs at hput
  obtain rfl := Option.some.inj hput
  obtain rfl := Option.some.inj hwritten
  exact hrest

private theorem run_alternating {n : Nat} {argv : List Nat} {line : List UInt8} {next : Scan}
    (hrun : run (step r) ⟨false, true, argv, line⟩ (alternating n) = some next) :
    next.argv.length = argv.length + (n + 1) / 2 := by
  induction n using alternating.induct generalizing argv line with
  | case1 =>
    obtain rfl := Option.some.inj hrun
    rfl
  | case2 =>
    obtain rfl := Option.some.inj (run_letter hrun)
    rw [List.length_append, List.length_singleton]
  | case3 n ih =>
    have hblank : run (step r) ⟨false, false, argv ++ [line.length], line ++ [97]⟩
        ([32] ++ alternating n) = some next := run_letter hrun
    rw [run_append] at hblank
    obtain ⟨middle, hsep, hrest⟩ := Option.bind_eq_some_iff.mp hblank
    obtain rfl := run_sep (List.cons_ne_nil 32 []) (by simp [isBlank]) hsep
    rw [ih hrest, List.length_append, List.length_singleton]
    omega

private theorem gCmdToArgv_alternating {n : Nat} (hn : 2 ^ 29 - 4 ≤ n) :
    gCmdToArgv ⟨alternating n, alternating_ne_zero n⟩ = none := by
  by_contra hsome
  obtain ⟨out, hout⟩ := Option.ne_none_iff_exists'.mp hsome
  unfold gCmdToArgv at hout
  rw [Option.bind_eq_bind] at hout
  obtain ⟨r, hroom, hrest⟩ := Option.bind_eq_some_iff.mp hout
  obtain ⟨first, hstart, hscan⟩ := Option.bind_eq_some_iff.mp hrest
  obtain ⟨s, hrun, hfinish⟩ := Option.bind_eq_some_iff.mp hscan
  dsimp only at hroom hrun
  rw [alternating_length] at hroom
  have hlong : 2 ^ 29 - 2 ≤ n := by
    by_contra hshort
    rw [room_eq_none hn (Nat.lt_of_not_le hshort)] at hroom
    cases hroom
  have hslots := room_slots_lt hroom
  rw [start] at hstart
  split_ifs at hstart
  obtain rfl := Option.some.inj hstart
  have hcount := run_alternating hrun
  obtain ⟨ended, hput, hnull⟩ := Option.bind_eq_some_iff.mp hfinish
  rw [Scan.put] at hput
  split_ifs at hput
  obtain rfl := Option.some.inj hput
  split_ifs at hnull with hslot
  have hfit : s.argv.length < r.slots := hslot
  rw [List.length_nil] at hcount
  omega

/-- The commands that are parsed as they should be are those whose sizes fit an `int`. -/
theorem parses_iff (length : Nat) : Parses length ↔ length < 2 ^ 29 - 4 := by
  constructor
  · intro hparses
    by_contra hlong
    have hsome := hparses.inside ⟨alternating length, alternating_ne_zero length⟩
      (alternating_length length)
    rw [gCmdToArgv_alternating (Nat.le_of_not_lt hlong)] at hsome
    cases hsome
  · intro hlt
    refine ⟨fun cmd hlength => ?_, fun cmd args sep hlength hargs hsep hblank hcmd => ?_⟩
    · obtain ⟨s, -, hresult⟩ := exists_gCmdToArgv (hlength ▸ hlt)
      rw [hresult]
      rfl
    · exact arguments_gCmdToArgv (hlength ▸ hlt) hargs hsep hblank hcmd

/-- A command of 2^28 arguments of one letter leaves the block. -/
theorem not_parses_long :
    gCmdToArgv ⟨alternating (2 ^ 29), alternating_ne_zero (2 ^ 29)⟩ = none :=
  gCmdToArgv_alternating (Nat.sub_le _ _)

end Libsax.Text.CmdToArgv
