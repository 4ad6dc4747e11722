import Libsax.Lib.CString

/-! `log_serializer`: data is written into a buffer of fixed size and cut where the buffer
ends; the end of the line tells that it was. -/
namespace Libsax.Logger.Serializer

open Libsax.Lib

/-- `TRUNCATED_MESSAGE`, " ...[this log has been truncated]\n" -/
def truncatedMessage : List UInt8 :=
  [32, 46, 46, 46, 91, 116, 104, 105, 115, 32, 108, 111, 103, 32, 104, 97, 115, 32, 98, 101, 101,
    110, 32, 116, 114, 117, 110, 99, 97, 116, 101, 100, 93, 10]

def newline : UInt8 := 10

/-- `memory` is that from the start of the buffer on, and `buf` a position in it. -/
structure LogSerializer where
  memory : Memory
  buf : Nat
  space : Nat

def create (memory : Memory) (bufSize : Nat) : LogSerializer := ⟨memory, 0, bufSize⟩

def write (s : LogSerializer) (data : List UInt8) : LogSerializer :=
  let size := if data.length > s.space then s.space else data.length
  ⟨s.memory.putAll s.buf (data.take size), s.buf + size, s.space - size⟩

def endOfLine (s : LogSerializer) : LogSerializer :=
  if s.space = 0 then
    { s with memory := s.memory.putAll (s.buf - truncatedMessage.length) truncatedMessage }
  else if s.memory (s.buf - 1) ≠ newline then
    { s with memory := Function.update s.memory s.buf newline, buf := s.buf + 1 }
  else s

/-- A line made of some writes. -/
def serialize (memory : Memory) (bufSize : Nat) (writes : List (List UInt8)) : LogSerializer :=
  endOfLine (writes.foldl write (create memory bufSize))

/-- The line that is meant: what was written, with a newline if it does not end in one. -/
def line (data : List UInt8) : List UInt8 :=
  if data.getLast? = some newline then data else data ++ [newline]

/-- What is promised of the line made of some data. -/
structure Keeps (memory : Memory) (bufSize : Nat) (data : List UInt8) (out : LogSerializer) :
    Prop where
  outside : ∀ i, bufSize ≤ i → out.memory i = memory i
  inside : out.buf ≤ bufSize
  ended : (out.memory.read out.buf 0).getLast? = some newline
  whole : (line data).length ≤ bufSize → out.memory.read out.buf 0 = line data
  /-- The message is there only if the line does not fit, or has it itself. -/
  cut : truncatedMessage <:+ out.memory.read out.buf 0 →
    bufSize < (line data).length ∨ truncatedMessage <:+ line data

variable {memory : Memory} {bufSize : Nat} {data : List UInt8} {writes : List (List UInt8)}

/-- After some data, as much of it is in the buffer as fits. -/
structure Written (memory : Memory) (bufSize : Nat) (data : List UInt8) (s : LogSerializer) :
    Prop where
  stored : Memory.Stored memory s.memory (data.take bufSize)
  buf : s.buf = (data.take bufSize).length
  space : s.space = bufSize - data.length

theorem Written.write {s : LogSerializer} (hwritten : Written memory bufSize data s)
    (more : List UInt8) : Written memory bufSize (data ++ more) (write s more) := by
  obtain ⟨hstored, hbuf, hspace⟩ := hwritten
  have hsize : (if more.length > s.space then s.space else more.length) =
      min (bufSize - data.length) more.length := by
    rw [hspace]
    split_ifs <;> omega
  have hmore : more.take (min (bufSize - data.length) more.length) =
      more.take (bufSize - data.length) := by
    rw [← List.take_take, List.take_length]
  have htake : (data ++ more).take bufSize =
      data.take bufSize ++ more.take (bufSize - data.length) := List.take_append
  unfold Serializer.write
  simp only [hsize, hmore]
  constructor
  · rw [htake, hbuf]
    apply @Memory.Stored.putAll _ _ (data.take bufSize) []
    · rwa [List.append_nil]
    · exact Nat.zero_le _
  · dsimp only
    rw [htake, hbuf, List.length_append, List.length_take (i := bufSize - data.length)]
  · dsimp only
    rw [hspace, List.length_append]
    omega

private theorem written_foldl (memory : Memory) (bufSize : Nat) (writes : List (List UInt8)) :
    Written memory bufSize writes.flatten (writes.foldl write (create memory bufSize)) := by
  have hgeneral : ∀ data s, Written memory bufSize data s →
      Written memory bufSize (data ++ writes.flatten) (writes.foldl write s) := by
    induction writes with
    | nil =>
      intro data s hwritten
      rwa [List.flatten_nil, List.append_nil]
    | cons more writes ih =>
      intro data s hwritten
      rw [List.flatten_cons, ← List.append_assoc]
      exact ih _ _ (hwritten.write more)
  apply hgeneral []
  refine ⟨?_, ?_, rfl⟩
  · rw [List.take_nil]
    exact Memory.stored_nil memory
  · rw [List.take_nil]
    rfl

private theorem endOfLine_short {s : LogSerializer} (hwritten : Written memory bufSize data s)
    (hdata : data ≠ []) (hlt : data.length < bufSize) :
    Memory.Stored memory (endOfLine s).memory (line data) ∧
      (endOfLine s).buf = (line data).length := by
  obtain ⟨hstored, hbuf, hspace⟩ := hwritten
  rw [List.take_of_length_le (Nat.le_of_lt hlt)] at hstored hbuf
  have hlast : s.memory (s.buf - 1) = data.getLast hdata := by
    have hsplit := List.dropLast_concat_getLast hdata
    have hat := hstored.front
    rw [← hsplit] at hat
    have hend := (Memory.at_append.mp hat).2.1
    rw [Nat.zero_add, List.length_dropLast] at hend
    rw [hbuf, hend]
  have hne : s.space ≠ 0 := by omega
  unfold endOfLine line
  rw [if_neg hne, hlast, List.getLast?_eq_some_getLast hdata]
  by_cases hnewline : data.getLast hdata = newline
  · rw [if_neg (not_not_intro hnewline), if_pos (congrArg some hnewline)]
    exact ⟨hstored, hbuf⟩
  · rw [if_pos hnewline, if_neg fun hsome => hnewline (Option.some.inj hsome)]
    constructor
    · have happend := @Memory.Stored.putAll _ _ data [] [newline] (by rwa [List.append_nil])
        (Nat.zero_le _)
      rw [← hbuf] at happend
      exact happend
    · dsimp only
      rw [hbuf, List.length_append, List.length_singleton]

private theorem endOfLine_full {s : LogSerializer} (hwritten : Written memory bufSize data s)
    (hle : bufSize ≤ data.length) (hsize : truncatedMessage.length ≤ bufSize) :
    Memory.Stored memory (endOfLine s).memory
        (data.take (bufSize - truncatedMessage.length) ++ truncatedMessage) ∧
      (endOfLine s).buf = bufSize := by
  obtain ⟨hstored, hbuf, hspace⟩ := hwritten
  have hzero : s.space = 0 := by omega
  have htake : (data.take bufSize).length = bufSize := by
    rw [List.length_take, Nat.min_eq_left hle]
  have hfront : (data.take (bufSize - truncatedMessage.length)).length =
      bufSize - truncatedMessage.length := by
    rw [List.length_take]
    omega
  have hsplit : data.take bufSize = data.take (bufSize - truncatedMessage.length) ++
      (data.take bufSize).drop (bufSize - truncatedMessage.length) := by
    have happend := List.take_append_drop (bufSize - truncatedMessage.length) (data.take bufSize)
    rw [List.take_take, Nat.min_eq_left (Nat.sub_le _ _)] at happend
    exact happend.symm
  unfold endOfLine
  rw [if_pos hzero]
  refine ⟨?_, hbuf.trans htake⟩
  have hback : ((data.take bufSize).drop (bufSize - truncatedMessage.length)).length ≤
      truncatedMessage.length := by
    rw [List.length_drop, htake]
    omega
  rw [hsplit] at hstored
  have hover := hstored.putAll hback
  rw [hfront] at hover
  dsimp only
  rw [hbuf, htake]
  exact hover

private theorem line_length_le (data : List UInt8) : (line data).length ≤ data.length + 1 := by
  unfold line
  split_ifs
  · exact Nat.le_succ _
  · rw [List.length_append, List.length_singleton]

private theorem line_getLast? (data : List UInt8) : (line data).getLast? = some newline := by
  unfold line
  split_ifs with hlast
  · exact hlast
  · exact List.getLast?_concat

private theorem keeps_short {out : LogSerializer} (hlt : data.length < bufSize)
    (hstored : Memory.Stored memory out.memory (line data))
    (hbuf : out.buf = (line data).length) : Keeps memory bufSize data out := by
  have hlength := line_length_le data
  have hread : out.memory.read out.buf 0 = line data := by
    rw [hbuf]
    exact Memory.read_of_at hstored.front
  refine ⟨fun i hi => hstored.behind i (by omega), by omega, ?_, fun _ => hread, ?_⟩
  · rw [hread]
    exact line_getLast? data
  · intro hcut
    rw [hread] at hcut
    exact Or.inr hcut

private theorem keeps_full {out : LogSerializer} (hle : bufSize ≤ data.length)
    (hsize : truncatedMessage.length ≤ bufSize)
    (hstored : Memory.Stored memory out.memory
      (data.take (bufSize - truncatedMessage.length) ++ truncatedMessage))
    (hbuf : out.buf = bufSize) :
    Keeps memory bufSize data out ↔
      ¬ (data.length = bufSize ∧ data.getLast? = some newline ∧ ¬ truncatedMessage <:+ data) := by
  have hlength : (data.take (bufSize - truncatedMessage.length) ++ truncatedMessage).length =
      bufSize := by
    rw [List.length_append, List.length_take]
    omega
  have hread : out.memory.read out.buf 0 =
      data.take (bufSize - truncatedMessage.length) ++ truncatedMessage := by
    have hfront := Memory.read_of_at hstored.front
    rw [hlength] at hfront
    rw [hbuf, hfront]
  constructor
  · rintro hkeeps ⟨hexact, hnewline, hother⟩
    have hline : line data = data := if_pos hnewline
    have hwhole := hkeeps.whole (by rw [hline, hexact])
    rw [hread, hline] at hwhole
    exact hother ⟨_, hwhole⟩
  · intro hcondition
    have hfits : (line data).length ≤ bufSize → data.length = bufSize ∧
        data.getLast? = some newline := by
      intro hshort
      unfold line at hshort
      split_ifs at hshort with hnewline
      · exact ⟨Nat.le_antisymm hshort hle, hnewline⟩
      · rw [List.length_append, List.length_singleton] at hshort
        omega
    have hmessage : (line data).length ≤ bufSize → truncatedMessage <:+ line data := by
      intro hshort
      obtain ⟨hexact, hnewline⟩ := hfits hshort
      rw [line, if_pos hnewline]
      by_contra hother
      exact hcondition ⟨hexact, hnewline, hother⟩
    refine ⟨fun i hi => hstored.behind i (by omega), Nat.le_of_eq hbuf, ?_, ?_, ?_⟩
    · rw [hread, List.getLast?_append]
      rfl
    · intro hshort
      obtain ⟨hexact, hnewline⟩ := hfits hshort
      obtain ⟨front, hfront⟩ := hmessage hshort
      rw [hread]
      rw [line, if_pos hnewline] at hfront ⊢
      have hcount : front.length = bufSize - truncatedMessage.length := by
        rw [← hexact, ← hfront, List.length_append, Nat.add_sub_cancel]
      have htake : data.take front.length = front := by rw [← hfront, List.take_left]
      rw [← hcount, htake, hfront]
    · intro _
      by_cases hshort : (line data).length ≤ bufSize
      · exact Or.inr (hmessage hshort)
      · exact Or.inl (Nat.lt_of_not_le hshort)

/-- The line is kept, or said to be cut, unless it fills the buffer to its end. -/
theorem keeps_iff (memory : Memory) (bufSize : Nat) (writes : List (List UInt8))
    (hsize : truncatedMessage.length ≤ bufSize) (hdata : writes.flatten ≠ []) :
    Keeps memory bufSize writes.flatten (serialize memory bufSize writes) ↔
      ¬ (writes.flatten.length = bufSize ∧ writes.flatten.getLast? = some newline ∧
        ¬ truncatedMessage <:+ writes.flatten) := by
  have hwritten := written_foldl memory bufSize writes
  by_cases hlt : writes.flatten.length < bufSize
  · obtain ⟨hstored, hbuf⟩ := endOfLine_short hwritten hdata hlt
    apply iff_of_true (keeps_short hlt hstored hbuf)
    rintro ⟨hexact, -⟩
    exact Nat.ne_of_lt hlt hexact
  · have hle := Nat.le_of_not_lt hlt
    obtain ⟨hstored, hbuf⟩ := endOfLine_full hwritten hle hsize
    exact keeps_full hle hsize hstored hbuf

/-- Two writes into a buffer of 40 bytes. -/
theorem keeps_iff_forty : Keeps (fun _ => 0) 40 [97, 98] (serialize (fun _ => 0) 40 [[97], [98]]) :=
  (keeps_iff (fun _ => 0) 40 [[97], [98]] (by decide) (by decide)).mpr fun hfull =>
    absurd hfull.1 (by decide)

/-- A line that fills a buffer of 34 bytes is said to be cut. -/
theorem not_keeps_exact : ¬ Keeps (fun _ => 0) 34 (List.replicate 34 10)
    (serialize (fun _ => 0) 34 [List.replicate 34 10]) := by
  intro hkeeps
  have hwhole := hkeeps.whole (by decide)
  revert hwhole
  decide

end Libsax.Logger.Serializer
