import Libsax.Net.Binary

/-! Sliding, growing and shrinking do not change what the buffer holds, and no
`int` of `ensure` overflows as long as the callers stay within their bound. -/
namespace Libsax.Net.Binary

open Libsax.Lib

/-- The most bytes that are stored and asked for together. -/
def limit : Nat := 2 ^ 27

/-- The largest block: twice one of which a fifth is idle. -/
def maxBlock : Nat := 5 * 2 ^ 26

/-- A block that holds the queue between two offsets. -/
structure Block (block : ByteStore) (end_ data free : Nat) (queue : List UInt8) : Prop where
  data_le_free : data ≤ free
  free_le_end : free ≤ end_
  end_le : end_ ≤ maxBlock
  le_end : 256 ≤ end_
  content : block.read data (free - data) = queue
  small : queue.length ≤ limit

/-- A buffer without a block is empty. -/
def Inv (b : Binary) (queue : List UInt8) : Prop :=
  match b.start with
  | none => b = create ∧ queue = []
  | some block => Block block b.end_ b.data b.free queue

variable {b : Binary} {queue : List UInt8}

theorem Inv.cases (hinv : Inv b queue) :
    b = create ∧ queue = [] ∨
    ∃ block end_ data free, b = ⟨some block, end_, data, free⟩ ∧
      Block block end_ data free queue := by
  obtain ⟨start, end_, data, free⟩ := b
  cases start with
  | none => exact Or.inl hinv
  | some block => exact Or.inr ⟨block, end_, data, free, rfl, hinv⟩

private theorem initial_inv : Inv create [] := ⟨rfl, rfl⟩

theorem Block.inv {block : ByteStore} {end_ data free : Nat}
    (hblock : Block block end_ data free queue) : Inv ⟨some block, end_, data, free⟩ queue := hblock

theorem Block.length {block : ByteStore} {end_ data free : Nat}
    (hblock : Block block end_ data free queue) : queue.length = free - data := by
  rw [← hblock.content, ByteStore.read_length]

theorem int_eq {number : Nat} (hlt : number < 2 ^ 31) : int number = some number := if_pos hlt

private theorem grow_eq {fuel size wanted : Nat} (hwanted : wanted ≤ limit)
    (hsize : size ≤ maxBlock)
    (hfuel : wanted ≤ size * 2 ^ fuel) :
    ∃ grown, grow (fuel + 1) size wanted = some grown ∧ wanted ≤ grown ∧ size ≤ grown ∧
      grown ≤ maxBlock := by
  induction fuel generalizing size with
  | zero =>
    rw [Nat.pow_zero, Nat.mul_one] at hfuel
    unfold grow
    exact ⟨size, if_neg (Nat.not_lt_of_le hfuel), hfuel, Nat.le_refl _, hsize⟩
  | succ fuel ih =>
    unfold grow
    split_ifs with hless
    · have hlt : 2 * size < 2 ^ 31 := by
        unfold limit at hwanted
        omega
      have hdouble : 2 * size ≤ maxBlock := by
        unfold limit at hwanted
        unfold maxBlock
        omega
      have hmore : wanted ≤ 2 * size * 2 ^ fuel := by
        rw [Nat.pow_succ'] at hfuel
        rwa [Nat.mul_comm 2 size, Nat.mul_assoc]
      obtain ⟨grown, hgrow, hle, hgrown, hmax⟩ := ih hdouble hmore
      refine ⟨grown, ?_, hle, by omega, hmax⟩
      rw [int_eq hlt, Option.bind_some, hgrow]
    · exact ⟨size, rfl, Nat.le_of_not_lt hless, Nat.le_refl _, hsize⟩

private theorem grow_block {size wanted : Nat} (hwanted : wanted ≤ limit) (hsize : size ≤ maxBlock)
    (hpositive : 0 < size) :
    ∃ grown, grow 32 size wanted = some grown ∧ wanted ≤ grown ∧ size ≤ grown ∧
      grown ≤ maxBlock := by
  refine grow_eq hwanted hsize ?_
  have hmul := Nat.mul_le_mul_right (2 ^ 31) hpositive
  unfold limit at hwanted
  omega

theorem Block.moved {block : ByteStore} {end_ data free size : Nat}
    (hblock : Block block end_ data free queue) (neu : ByteStore) (hle : 256 ≤ size)
    (hroom : queue.length ≤ size) (hsize : size ≤ maxBlock) :
    Block (neu.write 0 (block.read data (free - data))) size 0 (free - data) queue := by
  have hlength := hblock.length
  refine ⟨Nat.zero_le _, by omega, hsize, hle, ?_, hblock.small⟩
  rw [hblock.content, Nat.sub_zero, ← hlength]
  exact ByteStore.read_write

theorem Block.realloc {block : ByteStore} {end_ data free need : Nat}
    (hblock : Block block end_ data free queue) (hneed : queue.length + need ≤ limit)
    (malloc : ByteStore)
    (hidle : end_ - free + data < need ∨ (end_ - free + data) * 4 < free - data) :
    ∃ next, ((int (end_ * 2)).bind fun bufsize =>
        (grow 32 bufsize (need + (free - data))).bind fun bufsize =>
          some ((⟨some (malloc.write 0 (block.read data (free - data))), bufsize, 0,
            free - data⟩ : Binary), true)) = some (next, true) ∧
      Inv next queue ∧ need ≤ next.getFreeLen := by
  have hlength := hblock.length
  have hfree := hblock.free_le_end
  have hdata := hblock.data_le_free
  have hmin := hblock.le_end
  have hsmall := hblock.small
  have hdouble : end_ * 2 ≤ maxBlock := by
    unfold limit at hneed hsmall
    unfold maxBlock
    omega
  have hint : int (end_ * 2) = some (end_ * 2) :=
    int_eq (Nat.lt_of_le_of_lt hdouble (by decide))
  obtain ⟨grown, hgrow, hle, hmore, hmax⟩ :=
    @grow_block (end_ * 2) (need + (free - data)) (by omega) hdouble (by omega)
  have hmoved : Block (malloc.write 0 (block.read data (free - data))) grown 0 (free - data)
      queue := hblock.moved malloc (by omega) (by omega) hmax
  refine ⟨⟨some (malloc.write 0 (block.read data (free - data))), grown, 0, free - data⟩, ?_,
    hmoved, ?_⟩
  · rw [hint, Option.bind_some, hgrow, Option.bind_some]
  · unfold getFreeLen
    simp only
    omega

theorem Inv.ensure (hinv : Inv b queue) {need : Nat} (hneed : queue.length + need ≤ limit)
    (malloc : ByteStore) :
    ∃ next, b.ensure need (some malloc) = some (next, true) ∧ Inv next queue ∧
      need ≤ next.getFreeLen := by
  rcases hinv.cases with ⟨rfl, rfl⟩ | ⟨block, end_, data, free, rfl, hblock⟩
  · obtain ⟨grown, hgrow, hle, hmore, hmax⟩ :=
      @grow_block 256 need (by simpa using hneed) (by decide) (by decide)
    refine ⟨⟨some malloc, grown, 0, 0⟩, ?_, ?_, hle⟩
    · unfold Binary.ensure create
      simp only [hgrow, Option.bind_eq_bind, Option.bind_some]
    · exact ⟨Nat.le_refl _, Nat.zero_le _, hmax, hmore, rfl, Nat.zero_le _⟩
  · have hlength := hblock.length
    have hfree := hblock.free_le_end
    have hdata := hblock.data_le_free
    have hmax := hblock.end_le
    have hmin := hblock.le_end
    have hsmall := hblock.small
    have hflen : int (end_ - free + data) = some (end_ - free + data) :=
      int_eq (by unfold maxBlock at hmax; omega)
    have hdlen : int (free - data) = some (free - data) :=
      int_eq (by unfold maxBlock at hmax; omega)
    have hidle : int ((end_ - free + data) * 4) = some ((end_ - free + data) * 4) :=
      int_eq (by unfold maxBlock at hmax; omega)
    unfold Binary.ensure
    simp only [hflen, hdlen, hidle, Option.bind_eq_bind, Option.bind_some, Option.map_some]
    by_cases henough : end_ < free + need
    · by_cases hless : end_ - free + data < need
      · simp only [if_pos henough, if_pos hless, if_true]
        exact hblock.realloc hneed malloc (Or.inl hless)
      · simp only [if_pos henough, if_neg hless, decide_eq_true_eq]
        by_cases hfull : (end_ - free + data) * 4 < free - data
        · rw [if_pos hfull]
          exact hblock.realloc hneed malloc (Or.inr hfull)
        · rw [if_neg hfull]
          have hmoved : Block (block.write 0 (block.read data (free - data))) end_ 0 (free - data)
              queue := hblock.moved block hmin (by omega) hmax
          refine ⟨⟨some (block.write 0 (block.read data (free - data))), end_, 0, free - data⟩, rfl,
            hmoved, ?_⟩
          unfold getFreeLen
          simp only
          omega
    · rw [if_neg henough]
      refine ⟨⟨some block, end_, data, free⟩, rfl, hblock, ?_⟩
      unfold getFreeLen
      simp only
      omega

theorem Inv.pour (hinv : Inv b queue) {bytes : List UInt8}
    (hbytes : queue.length + bytes.length ≤ limit) :
    ((b.fill bytes).pour bytes.length).2 = decide (bytes.length ≤ b.getFreeLen) ∧
    Inv ((b.fill bytes).pour bytes.length).1
      (if bytes.length ≤ b.getFreeLen then queue ++ bytes else queue) := by
  rcases hinv.cases with ⟨rfl, rfl⟩ | ⟨block, end_, data, free, rfl, hblock⟩
  · cases bytes with
    | nil => exact ⟨rfl, rfl, rfl⟩
    | cons byte rest => exact ⟨rfl, rfl, rfl⟩
  · have hfree := hblock.free_le_end
    have hdata := hblock.data_le_free
    have hfits : free + bytes.length ≤ end_ ↔ bytes.length ≤ end_ - free := by omega
    unfold fill Binary.pour getFreeLen
    simp only
    by_cases hroom : free + bytes.length ≤ end_
    · rw [if_pos hroom, if_pos (hfits.mp hroom)]
      simp only [if_pos hroom, decide_eq_true (hfits.mp hroom), Option.map_some, true_and]
      refine ⟨Nat.le_trans hdata (Nat.le_add_right _ _), hroom, hblock.end_le, hblock.le_end, ?_,
        by rw [List.length_append]; exact hbytes⟩
      have hsplit : free + bytes.length - data = (free - data) + bytes.length := by omega
      have hkept : (block.write free bytes).read data (free - data) =
          block.read data (free - data) :=
        ByteStore.read_congr (ByteStore.agree_write (Or.inl (by omega)))
      rw [hsplit, ByteStore.read_add, hkept, hblock.content, Nat.add_sub_cancel' hdata,
        ByteStore.read_write]
    · rw [if_neg hroom, if_neg fun h => hroom (hfits.mpr h)]
      simp only [if_neg hroom, decide_eq_false fun h => hroom (hfits.mpr h), true_and]
      exact hblock

theorem Inv.clear (hinv : Inv b queue) : Inv b.clear [] := by
  rcases hinv.cases with ⟨rfl, rfl⟩ | ⟨block, end_, data, free, rfl, hblock⟩
  · exact initial_inv
  · exact ⟨Nat.le_refl _, Nat.zero_le _, hblock.end_le, hblock.le_end, rfl, Nat.zero_le _⟩

theorem Inv.drain (hinv : Inv b queue) (len : Nat) : Inv (b.drain len) (queue.drop len) := by
  rcases hinv.cases with ⟨rfl, rfl⟩ | ⟨block, end_, data, free, rfl, hblock⟩
  · have hnothing : create.drain len = create := by
      unfold Binary.drain
      exact if_pos (Nat.zero_le (create.data + len))
    rw [List.drop_nil, hnothing]
    exact initial_inv
  · have hlength := hblock.length
    have hsmall := hblock.small
    unfold Binary.drain
    simp only
    split_ifs with hall
    · have hbeyond : free ≤ data + len := hall
      rw [List.drop_eq_nil_of_le (by omega)]
      exact hblock.inv.clear
    · have hwithin : ¬free ≤ data + len := hall
      refine Block.inv ⟨by omega, hblock.free_le_end, hblock.end_le, hblock.le_end, ?_, ?_⟩
      · have hsplit : free - data = len + (free - (data + len)) := by omega
        rw [← hblock.content, hsplit, ByteStore.read_add, List.drop_left' ByteStore.read_length]
      · rw [List.length_drop]
        omega

theorem Inv.strip (hinv : Inv b queue) (len : Nat) :
    (b.strip len).2 = decide (len ≤ queue.length) ∧
    Inv (b.strip len).1
      (if len ≤ queue.length then queue.take (queue.length - len) else queue) := by
  rcases hinv.cases with ⟨rfl, rfl⟩ | ⟨block, end_, data, free, rfl, hblock⟩
  · cases len with
    | zero => exact ⟨rfl, rfl, rfl⟩
    | succ len => exact ⟨rfl, rfl, rfl⟩
  · have hlength := hblock.length
    have hdata := hblock.data_le_free
    have hfree := hblock.free_le_end
    have hsmall := hblock.small
    have hfits : data + len ≤ free ↔ len ≤ queue.length := by omega
    unfold Binary.strip
    simp only
    by_cases hthere : data + len ≤ free
    · rw [if_pos hthere, if_pos (hfits.mp hthere)]
      simp only [decide_eq_true (hfits.mp hthere), true_and]
      refine Block.inv ⟨by omega, by omega, hblock.end_le, hblock.le_end, ?_, ?_⟩
      · have hsplit : free - data = (free - len - data) + len := by omega
        have htake : queue.length - len = free - len - data := by omega
        rw [htake, ← hblock.content, hsplit, ByteStore.read_add, List.take_left' ByteStore.read_length]
      · rw [List.length_take]
        omega
    · rw [if_neg hthere, if_neg fun h => hthere (hfits.mpr h)]
      simp only [decide_eq_false fun h => hthere (hfits.mpr h), true_and]
      exact hblock

theorem Inv.shrink (hinv : Inv b queue) (malloc : ByteStore) :
    ∃ next, b.shrink (some malloc) = some next ∧ Inv next queue := by
  rcases hinv.cases with ⟨rfl, rfl⟩ | ⟨block, end_, data, free, rfl, hblock⟩
  · exact ⟨create, rfl, initial_inv⟩
  · have hlength := hblock.length
    unfold Binary.shrink
    simp only
    split_ifs with hkeep
    · exact ⟨_, rfl, hblock⟩
    · have hmoved : Block (malloc.write 0 (block.read data (free - data))) maxSize 0 (free - data)
          queue := hblock.moved malloc (by decide) (by omega) (by decide)
      exact ⟨_, rfl, hmoved⟩

theorem Inv.exec {system : System} (hinv : Inv system.binary system.queue) {call : BinaryCall}
    (hfitting : Fitting system call) :
    ∃ next, system.binary.exec call = some (next, expected system call) ∧
      Inv next (remember system call) := by
  cases call with
  | ensure need malloc =>
    obtain ⟨hneed, hmalloc⟩ := hfitting
    obtain ⟨block, rfl⟩ := Option.isSome_iff_exists.mp hmalloc
    obtain ⟨next, hensure, hnext, -⟩ := hinv.ensure hneed block
    exact ⟨next, hensure, hnext⟩
  | pour bytes =>
    obtain ⟨hanswer, hnext⟩ := hinv.pour hfitting
    exact ⟨_, congrArg some (Prod.ext rfl hanswer), hnext⟩
  | drain len => exact ⟨_, rfl, hinv.drain len⟩
  | strip len =>
    obtain ⟨hanswer, hnext⟩ := hinv.strip len
    exact ⟨_, congrArg some (Prod.ext rfl hanswer), hnext⟩
  | shrink malloc =>
    obtain ⟨block, rfl⟩ := Option.isSome_iff_exists.mp hfitting
    obtain ⟨next, hshrink, hnext⟩ := hinv.shrink block
    refine ⟨next, ?_, hnext⟩
    unfold Binary.exec
    simp only [hshrink, Option.map_some, expected]
  | clear => exact ⟨_, rfl, hinv.clear⟩

theorem Inv.step {system : System} {call : BinaryCall} (hfitting : Fitting system call)
    (hinv : Inv system.binary system.queue) :
    ∃ next, Binary.step system call = some next ∧ Inv next.binary next.queue := by
  obtain ⟨next, hexec, hnext⟩ := hinv.exec hfitting
  refine ⟨⟨next, remember system call⟩, ?_, hnext⟩
  unfold Binary.step
  rw [hexec]
  rfl

theorem Inv.sound {system : System} (hinv : Inv system.binary system.queue) : Sound system := by
  have hanswers : ∀ call, Fitting system call →
      ∃ next, system.binary.exec call = some (next, expected system call) := fun call hfitting => by
    obtain ⟨next, hexec, -⟩ := hinv.exec hfitting
    exact ⟨next, hexec⟩
  have hensures : ∀ need malloc next, Fitting system (.ensure need malloc) →
      system.binary.ensure need malloc = some (next, true) → need ≤ next.getFreeLen := by
    intro need malloc next hfitting hensure
    obtain ⟨hneed, hmalloc⟩ := hfitting
    obtain ⟨block, rfl⟩ := Option.isSome_iff_exists.mp hmalloc
    obtain ⟨other, hother, -, hroom⟩ := hinv.ensure hneed block
    cases Option.some.inj (hensure.symm.trans hother)
    exact hroom
  rcases hinv.cases with ⟨hcreate, hnil⟩ | ⟨block, end_, data, free, hbinary, hblock⟩
  · refine ⟨?_, ?_, ?_, hanswers, hensures⟩
    · rw [hcreate]; exact Nat.le_refl _
    · rw [hcreate]; exact Nat.le_refl _
    · rw [hcreate, hnil]; rfl
  · refine ⟨?_, ?_, ?_, hanswers, hensures⟩
    · rw [hbinary]; exact hblock.data_le_free
    · rw [hbinary]; exact hblock.free_le_end
    · rw [hbinary]; exact hblock.content

/-- Whatever is poured, drained, stripped, grown and shrunk within the bound, the
buffer is a queue of bytes. -/
theorem binary_is_queue {calls : List BinaryCall} (hcalls : Along step Fitting initial calls) :
    ∃ final, run step initial calls = some final ∧ Sound final := by
  have hstep : ∀ system call, Fitting system call → Inv system.binary system.queue →
      ∃ next, step system call = some next ∧ Inv next.binary next.queue :=
    fun _ _ hfitting hinv => Inv.step hfitting hinv
  obtain ⟨final, hrun, hinv⟩ := run_along hstep hcalls initial_inv
  exact ⟨final, hrun, hinv.sound⟩

theorem binary_is_queue_short : ∃ final,
    run step initial [.ensure 3 (some fun _ => 0), .pour [1, 2, 3], .drain 1, .ensure 300
      (some fun _ => 7), .strip 1, .shrink (some fun _ => 0)] = some final ∧ Sound final :=
  binary_is_queue (by decide +kernel)

end Libsax.Net.Binary
