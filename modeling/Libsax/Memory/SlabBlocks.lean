import Libsax.Memory.SlabAlloc

/-! Blocks: the runs of pages and the chunks that have been handed out. Which ones there are can be
read from the roles of the pages. -/
namespace Libsax.Memory

/-- How many bytes begin at an address of a page as one block. -/
def Role.block (sizes : SlabSizes) : Role → Nat → Option Nat
  | .run len, p => if p % sizes.pagesize = 0 then some (len * sizes.pagesize) else none
  | .chunks shift busy, p =>
    let n := p % sizes.pagesize / 2 ^ shift
    if p % 2 ^ shift = 0 ∧ SlabPool.reserved sizes shift ≤ n ∧ busy n = true then some (2 ^ shift)
    else none
  | _, _ => none

namespace SlabPool

def blockOf (sizes : SlabSizes) (pages : Nat) (roles : Nat → Role) (p : Nat) : Option Nat :=
  if p / sizes.pagesize < pages then (roles (p / sizes.pagesize)).block sizes p else none

variable {pool pool' : SlabPool} {lists : Option Nat → List Nat} {roles roles' : Nat → Role}
  {i j k m n p q a b len shift : Nat} {busy : Nat → Bool}

section Addresses

variable (hproper : pool.sizes.Proper) (hmax : shift < pool.sizes.pagesizeShift)

include hproper

theorem pagesize_pos : 0 < pool.sizes.pagesize := hproper.pagesize ▸ Nat.two_pow_pos _

private theorem shiftLeft_page (i : Nat) :
    i <<< pool.sizes.pagesizeShift = i * pool.sizes.pagesize := by
  rw [Nat.shiftLeft_eq, hproper.pagesize]

private theorem chunk_eq (i shift n : Nat) :
    chunk pool.sizes i shift n = i * pool.sizes.pagesize + n * 2 ^ shift := by
  unfold chunk
  rw [shiftLeft_page hproper, Nat.shiftLeft_eq]

include hmax

@[simp] private theorem count_mul : count pool.sizes shift * 2 ^ shift = pool.sizes.pagesize := by
  unfold count
  rw [hproper.pagesize, ← Nat.pow_add, Nat.sub_add_cancel (Nat.le_of_lt hmax)]

private theorem chunk_lt (hn : n < count pool.sizes shift) :
    n * 2 ^ shift + 2 ^ shift ≤ pool.sizes.pagesize := by
  have hle := Nat.mul_le_mul_right (2 ^ shift) (Nat.succ_le_of_lt hn)
  rw [count_mul hproper hmax, Nat.succ_mul] at hle
  exact hle

private theorem chunk_mod_lt (hn : n < count pool.sizes shift) :
    n * 2 ^ shift < pool.sizes.pagesize := by
  have hlt := chunk_lt hproper hmax hn
  have hpos := Nat.two_pow_pos shift
  omega

theorem chunk_page (hn : n < count pool.sizes shift) :
    chunk pool.sizes i shift n / pool.sizes.pagesize = i := by
  rw [chunk_eq hproper, Nat.mul_comm i, Nat.mul_add_div (pagesize_pos hproper),
    Nat.div_eq_of_lt (chunk_mod_lt hproper hmax hn), Nat.add_zero]

theorem chunk_number (hn : n < count pool.sizes shift) :
    chunk pool.sizes i shift n % pool.sizes.pagesize / 2 ^ shift = n := by
  rw [chunk_eq hproper, Nat.mul_comm i, Nat.mul_add_mod,
    Nat.mod_eq_of_lt (chunk_mod_lt hproper hmax hn), Nat.mul_div_cancel _ (Nat.two_pow_pos _)]

private theorem dvd_pagesize : 2 ^ shift ∣ pool.sizes.pagesize :=
  ⟨count pool.sizes shift, (Nat.mul_comm _ _).trans (count_mul hproper hmax) |>.symm⟩

private theorem chunk_aligned (i n : Nat) : chunk pool.sizes i shift n % 2 ^ shift = 0 := by
  rw [chunk_eq hproper]
  exact Nat.mod_eq_zero_of_dvd (Nat.dvd_add
    (Nat.dvd_mul_left_of_dvd (dvd_pagesize hproper hmax) i) (Nat.dvd_mul_left _ n))

theorem number_lt (p : Nat) : p % pool.sizes.pagesize / 2 ^ shift < count pool.sizes shift := by
  rw [Nat.div_lt_iff_lt_mul (Nat.two_pow_pos _), count_mul hproper hmax]
  exact Nat.mod_lt p (pagesize_pos hproper)

theorem eq_chunk (haligned : p % 2 ^ shift = 0) :
    p = chunk pool.sizes (p / pool.sizes.pagesize) shift
      (p % pool.sizes.pagesize / 2 ^ shift) := by
  have hinside : 2 ^ shift ∣ p % pool.sizes.pagesize :=
    (Nat.dvd_mod_iff (dvd_pagesize hproper hmax)).mpr (Nat.dvd_of_mod_eq_zero haligned)
  rw [chunk_eq hproper, Nat.div_mul_cancel hinside, Nat.mul_comm]
  exact (Nat.div_add_mod p _).symm

end Addresses

theorem Valid.chunks (hvalid : Valid pool lists roles) (hi : i < pool.pages)
    (hrole : roles i = .chunks shift busy) : minShift ≤ shift ∧ shift < pool.sizes.pagesizeShift ∧
      ∀ n, n < reserved pool.sizes shift → busy n = true := by
  have hshows := hvalid.shows i hi
  rw [hrole] at hshows
  exact ⟨hshows.1, hshows.2.1, hshows.2.2.2.2.2⟩

theorem blockOf_at {sizes : SlabSizes} {pages : Nat} (hpage : p / sizes.pagesize = i)
    (hi : i < pages) : blockOf sizes pages roles p = (roles i).block sizes p := by
  unfold blockOf
  rw [hpage, if_pos hi]

theorem Valid.block_cases (hvalid : Valid pool lists roles)
    (hblock : blockOf pool.sizes pool.pages roles p = some a) :
    (∃ i len, i < pool.pages ∧ roles i = .run len ∧ p = i * pool.sizes.pagesize ∧
      a = len * pool.sizes.pagesize) ∨
    ∃ i shift busy n, i < pool.pages ∧ roles i = .chunks shift busy ∧
      shift < pool.sizes.pagesizeShift ∧ reserved pool.sizes shift ≤ n ∧
      n < count pool.sizes shift ∧ busy n = true ∧ p = chunk pool.sizes i shift n ∧
      a = 2 ^ shift := by
  unfold blockOf at hblock
  split at hblock
  · next hi =>
    cases hrole : roles (p / pool.sizes.pagesize) with
    | free len =>
      rw [hrole] at hblock
      cases hblock
    | inner =>
      rw [hrole] at hblock
      cases hblock
    | run len =>
      rw [hrole] at hblock
      unfold Role.block at hblock
      dsimp only at hblock
      split at hblock
      · next haligned =>
        refine .inl ⟨_, len, hi, hrole, ?_, (Option.some.inj hblock).symm⟩
        exact (Nat.div_mul_cancel (Nat.dvd_of_mod_eq_zero haligned)).symm
      · cases hblock
    | chunks shift busy =>
      rw [hrole] at hblock
      unfold Role.block at hblock
      dsimp only at hblock
      split at hblock
      · next hchunk =>
        have hmax := (hvalid.chunks hi hrole).2.1
        exact .inr ⟨_, shift, busy, _, hi, hrole, hmax, hchunk.2.1,
          number_lt hvalid.proper hmax p, hchunk.2.2, eq_chunk hvalid.proper hmax hchunk.1,
          (Option.some.inj hblock).symm⟩
      · cases hblock
  · cases hblock

theorem block_run (hproper : pool.sizes.Proper) (hi : i < pool.pages) (hrole : roles i = .run len) :
    blockOf pool.sizes pool.pages roles (i * pool.sizes.pagesize) =
      some (len * pool.sizes.pagesize) := by
  rw [blockOf_at (Nat.mul_div_cancel i (pagesize_pos hproper)) hi, hrole]
  exact if_pos (Nat.mul_mod_left _ _)

theorem block_chunk (hproper : pool.sizes.Proper) (hmax : shift < pool.sizes.pagesizeShift)
    (hi : i < pool.pages) (hrole : roles i = .chunks shift busy)
    (hreserved : reserved pool.sizes shift ≤ n) (hn : n < count pool.sizes shift)
    (hbusy : busy n = true) :
    blockOf pool.sizes pool.pages roles (chunk pool.sizes i shift n) = some (2 ^ shift) := by
  rw [blockOf_at (chunk_page hproper hmax hn) hi, hrole]
  unfold Role.block
  dsimp only
  rw [chunk_number hproper hmax hn]
  exact if_pos ⟨chunk_aligned hproper hmax i n, hreserved, hbusy⟩

theorem Valid.block_inside (hvalid : Valid pool lists roles)
    (hblock : blockOf pool.sizes pool.pages roles p = some a) :
    p + a ≤ pool.pages * pool.sizes.pagesize := by
  have hproper := hvalid.proper
  rcases hvalid.block_cases hblock with ⟨i, len, hi, hrole, rfl, rfl⟩ |
    ⟨i, shift, busy, n, hi, hrole, hmax, -, hn, -, rfl, rfl⟩
  · rw [← Nat.add_mul]
    exact Nat.mul_le_mul_right _ (hvalid.tiled.tiles i len hi (.inr hrole)).2.1
  · have hlt := chunk_lt hproper hmax hn
    have hnext := Nat.mul_le_mul_right pool.sizes.pagesize (Nat.succ_le_of_lt hi)
    rw [Nat.succ_mul] at hnext
    rw [chunk_eq hproper]
    omega

theorem Valid.block_pos (hvalid : Valid pool lists roles)
    (hblock : blockOf pool.sizes pool.pages roles p = some a) : 0 < a := by
  rcases hvalid.block_cases hblock with ⟨i, len, hi, hrole, -, rfl⟩ |
    ⟨i, shift, busy, n, -, -, -, -, -, -, -, rfl⟩
  · exact Nat.mul_pos (hvalid.tiled.tiles i len hi (.inr hrole)).1 (pagesize_pos hvalid.proper)
  · exact Nat.two_pow_pos _

theorem Valid.block_before (hvalid : Valid pool lists roles)
    (hblock : blockOf pool.sizes pool.pages roles p = some a) (hrole : roles j ≠ .inner)
    (hbefore : p / pool.sizes.pagesize < j) : p + a ≤ j * pool.sizes.pagesize := by
  have hproper := hvalid.proper
  rcases hvalid.block_cases hblock with ⟨i, len, hi, hrun, rfl, rfl⟩ |
    ⟨i, shift, busy, n, hi, hchunks, hmax, -, hn, -, rfl, rfl⟩
  · rw [Nat.mul_div_cancel i (pagesize_pos hproper)] at hbefore
    rw [← Nat.add_mul]
    refine Nat.mul_le_mul_right _ (Nat.le_of_not_lt fun hinside => hrole ?_)
    exact (hvalid.tiled.tiles i len hi (.inr hrun)).2.2 j hbefore hinside
  · rw [chunk_page hproper hmax hn] at hbefore
    have hlt := chunk_lt hproper hmax hn
    have hnext := Nat.mul_le_mul_right pool.sizes.pagesize (Nat.succ_le_of_lt hbefore)
    rw [Nat.succ_mul] at hnext
    rw [chunk_eq hproper]
    omega

private theorem block_role (hblock : blockOf pool.sizes pool.pages roles p = some a) :
    roles (p / pool.sizes.pagesize) ≠ .inner := by
  intro hinner
  unfold blockOf at hblock
  rw [hinner] at hblock
  split at hblock <;> cases hblock

theorem Valid.block_apart (hvalid : Valid pool lists roles)
    (hblock : blockOf pool.sizes pool.pages roles p = some a)
    (hother : blockOf pool.sizes pool.pages roles q = some b) (hlt : p < q) : p + a ≤ q := by
  have hproper := hvalid.proper
  have hpages : p / pool.sizes.pagesize ≤ q / pool.sizes.pagesize :=
    Nat.div_le_div_right (Nat.le_of_lt hlt)
  rcases Nat.lt_or_eq_of_le hpages with hbehind | hsame
  · exact Nat.le_trans (hvalid.block_before hblock (block_role hother) hbehind)
      (Nat.div_mul_le_self _ _)
  rcases hvalid.block_cases hblock with ⟨i, len, hi, hrole, rfl, rfl⟩ |
    ⟨i, shift, busy, n, hi, hrole, hmax, -, hn, -, rfl, rfl⟩
  · rcases hvalid.block_cases hother with ⟨j, len', -, -, rfl, -⟩ |
      ⟨j, shift, busy, n, -, hrole', hmax, -, hn, -, rfl, -⟩
    · rw [Nat.mul_div_cancel i (pagesize_pos hproper),
        Nat.mul_div_cancel j (pagesize_pos hproper)] at hsame
      exact absurd hlt (hsame ▸ Nat.lt_irrefl _)
    · rw [Nat.mul_div_cancel i (pagesize_pos hproper), chunk_page hproper hmax hn] at hsame
      rw [← hsame, hrole] at hrole'
      cases hrole'
  · rcases hvalid.block_cases hother with ⟨j, len', -, hrole', rfl, -⟩ |
      ⟨j, shift', busy', n', -, hrole', hmax', -, hn', -, rfl, -⟩
    · rw [Nat.mul_div_cancel j (pagesize_pos hproper), chunk_page hproper hmax hn] at hsame
      rw [← hsame, hrole] at hrole'
      cases hrole'
    · rw [chunk_page hproper hmax hn, chunk_page hproper hmax' hn'] at hsame
      subst hsame
      rw [hrole] at hrole'
      cases hrole'
      rw [chunk_eq hproper, chunk_eq hproper] at hlt ⊢
      have hless : n < n' := Nat.lt_of_mul_lt_mul_right (Nat.lt_of_add_lt_add_left hlt)
      have hnext := Nat.mul_le_mul_right (2 ^ shift) (Nat.succ_le_of_lt hless)
      rw [Nat.succ_mul] at hnext
      omega

theorem Valid.block_aligned (hvalid : Valid pool lists roles)
    (hblock : blockOf pool.sizes pool.pages roles p = some a) :
    a ∣ p ∨ pool.sizes.pagesize ∣ p := by
  rcases hvalid.block_cases hblock with ⟨i, len, -, -, rfl, -⟩ |
    ⟨i, shift, busy, n, -, -, hmax, -, -, -, rfl, rfl⟩
  · exact .inr (Nat.dvd_mul_left _ i)
  · exact .inl (Nat.dvd_of_mod_eq_zero (chunk_aligned hvalid.proper hmax i n))

private theorem map_le_header (hproper : pool.sizes.Proper)
    (hsmall : shift < pool.sizes.exactShift) :
    map pool.sizes shift * 8 ≤ header pool.sizes shift * 2 ^ shift := by
  have hmap := count_eq_map hproper hsmall
  have hexact := hproper.exactShift
  have hcount : count pool.sizes shift / 2 ^ 3 = 2 ^ (pool.sizes.pagesizeShift - shift - 3) :=
    Nat.pow_div (by omega) (by omega)
  have heighth : map pool.sizes shift * 8 = count pool.sizes shift / 8 := by omega
  unfold header
  rw [Nat.shiftLeft_eq, Nat.shiftLeft_eq, Nat.one_mul, Nat.one_mul, heighth,
    show 2 ^ (pool.sizes.pagesizeShift - shift) = count pool.sizes shift from rfl,
    show 8 = 2 ^ 3 from rfl, hcount]
  dsimp only
  split_ifs with hfew
  · rw [Nat.one_mul]
    exact Nat.le_of_lt ((Nat.div_eq_zero_iff_lt (Nat.two_pow_pos _)).mp hfew)
  · have hle : shift ≤ pool.sizes.pagesizeShift - shift - 3 := by
      by_contra hnot
      refine hfew ((Nat.div_eq_zero_iff_lt (Nat.two_pow_pos _)).mpr ?_)
      exact Nat.pow_lt_pow_right (by omega) (Nat.lt_of_not_le hnot)
    rw [Nat.div_mul_cancel (Nat.pow_dvd_pow 2 hle)]

theorem Valid.block_clear (hvalid : Valid pool lists roles) (hi : i < pool.pages)
    (hrole : roles i = .chunks shift busy) (hsmall : shift < pool.sizes.exactShift)
    (hblock : blockOf pool.sizes pool.pages roles p = some a) :
    p + a ≤ i * pool.sizes.pagesize ∨
      i * pool.sizes.pagesize + map pool.sizes shift * 8 ≤ p := by
  have hproper := hvalid.proper
  have hheader := map_le_header hproper hsmall
  have hmax := (hvalid.chunks hi hrole).2.1
  rcases Nat.lt_trichotomy (p / pool.sizes.pagesize) i with hbefore | hsame | hbehind
  · exact .inl (hvalid.block_before hblock (by rw [hrole]; exact Role.noConfusion) hbefore)
  · right
    rcases hvalid.block_cases hblock with ⟨j, len, -, hother, rfl, -⟩ |
      ⟨j, shift', busy', n, -, hother, hmax', hn, hlt, -, rfl, -⟩
    · rw [Nat.mul_div_cancel j (pagesize_pos hproper)] at hsame
      rw [hsame, hrole] at hother
      cases hother
    · rw [chunk_page hproper hmax' hlt] at hsame
      rw [hsame, hrole] at hother
      cases hother
      have hreserved : reserved pool.sizes shift = header pool.sizes shift := if_pos hsmall
      have hmul := Nat.mul_le_mul_right (2 ^ shift) (hreserved ▸ hn)
      rw [chunk_eq hproper, hsame]
      omega
  · right
    have hcount := count_mul hproper hmax
    have hmap := count_eq_map hproper hsmall
    have hone := Nat.le_mul_of_pos_right (count pool.sizes shift) (Nat.two_pow_pos shift)
    have hnext := Nat.mul_le_mul_right pool.sizes.pagesize (Nat.succ_le_of_lt hbehind)
    have hpage := Nat.div_mul_le_self p pool.sizes.pagesize
    rw [Nat.succ_mul] at hnext
    omega

private theorem blockOf_other {sizes : SlabSizes} {pages : Nat}
    (hother : (roles' (p / sizes.pagesize)).block sizes p =
      (roles (p / sizes.pagesize)).block sizes p) :
    blockOf sizes pages roles' p = blockOf sizes pages roles p := by
  unfold blockOf
  rw [hother]

private theorem blockOf_update {sizes : SlabSizes} {pages : Nat} {new : Option Nat}
    (hpage : p / sizes.pagesize = i) (hi : i < pages)
    (hsame : ∀ q, q / sizes.pagesize = i → (roles' i).block sizes q =
      if q = p then new else (roles i).block sizes q)
    (hother : ∀ j, j ≠ i → ∀ q, (roles' j).block sizes q = (roles j).block sizes q) :
    blockOf sizes pages roles' = Function.update (blockOf sizes pages roles) p new := by
  funext q
  rw [Function.update_apply]
  by_cases hq : q / sizes.pagesize = i
  · rw [blockOf_at hq hi, hsame q hq, blockOf_at hq hi]
  · rw [if_neg fun heq : q = p => hq (heq ▸ hpage)]
    exact blockOf_other (hother _ hq q)

@[simp] private theorem block_free (sizes : SlabSizes) (len p : Nat) :
    (Role.free len).block sizes p = none := rfl

@[simp] private theorem block_inner (sizes : SlabSizes) (p : Nat) :
    Role.inner.block sizes p = none := rfl

theorem Valid.cut_block (hvalid : Valid pool lists roles) (hi : i < pool.pages)
    (hrole : roles i = .free len) (hk : 0 < k) (hj : j ≠ i) (q : Nat) :
    (cut roles i k len j).block pool.sizes q = (roles j).block pool.sizes q := by
  by_cases hrest : j = i + k ∧ k < len
  · obtain ⟨rfl, hmore⟩ := hrest
    have hinner := (hvalid.tiled.tiles i len hi (.inl hrole)).2.2 (i + k) (by omega) (by omega)
    rw [cut_rest hk hmore, hinner, block_free, block_inner]
  · rw [cut_of_ne hj hrest]

private theorem block_chunks (hproper : pool.sizes.Proper) (hmax : shift < pool.sizes.pagesizeShift)
    {busy' : Nat → Bool} (hsame : ∀ m, m ≠ n → busy' m = busy m) (hn : n < count pool.sizes shift)
    (hreserved : reserved pool.sizes shift ≤ n) (hpage : q / pool.sizes.pagesize = i) :
    (Role.chunks shift busy').block pool.sizes q = if q = chunk pool.sizes i shift n then
      (if busy' n = true then some (2 ^ shift) else none)
      else (Role.chunks shift busy).block pool.sizes q := by
  unfold Role.block
  dsimp only
  by_cases hq : q = chunk pool.sizes i shift n
  · rw [if_pos hq, hq, chunk_number hproper hmax hn]
    have haligned := chunk_aligned hproper hmax i n
    by_cases hbusy : busy' n = true
    · rw [if_pos ⟨haligned, hreserved, hbusy⟩, if_pos hbusy]
    · rw [if_neg fun hand => hbusy hand.2.2, if_neg hbusy]
  · rw [if_neg hq]
    by_cases haligned : q % 2 ^ shift = 0
    · have hother : q % pool.sizes.pagesize / 2 ^ shift ≠ n := by
        rintro rfl
        exact hq (hpage ▸ eq_chunk hproper hmax haligned)
      rw [hsame _ hother]
    · rw [if_neg fun hand => haligned hand.1, if_neg fun hand => haligned hand.1]

theorem Hands.block (hvalid : Valid pool lists roles)
    (hhands : Hands pool.sizes pool.pages roles a p roles') :
    blockOf pool.sizes pool.pages roles p = none ∧
      blockOf pool.sizes pool.pages roles' =
        Function.update (blockOf pool.sizes pool.pages roles) p (some a) := by
  have hproper := hvalid.proper
  cases hhands with
  | @next i shift n busy hi hrole hn hfree =>
    obtain ⟨-, hmax, hreserved⟩ := hvalid.chunks hi hrole
    have hle : reserved pool.sizes shift ≤ n := by
      refine Nat.le_of_not_lt fun hlt => ?_
      rw [hreserved n hlt] at hfree
      cases hfree
    have hpage := @chunk_page _ i n shift hproper hmax hn
    refine ⟨?_, blockOf_update hpage hi (fun q hq => ?_) fun j hj q => ?_⟩
    · rw [blockOf_at hpage hi, hrole, block_chunks hproper hmax (fun _ _ => rfl) hn hle hpage,
        if_pos rfl, if_neg (by rw [hfree]; exact Bool.false_ne_true)]
    · rw [Function.update_self, hrole, block_chunks hproper hmax
        (fun m hm => Function.update_of_ne hm _ _) hn hle hq, if_pos (Function.update_self _ _ _)]
    · rw [Function.update_of_ne hj]
  | @first i shift len hi hrole hmin hmax =>
    have hn : reserved pool.sizes shift < count pool.sizes shift :=
      Nat.lt_of_succ_lt (reserved_lt hproper hmax)
    have hpage := @chunk_page _ i _ shift hproper hmax hn
    refine ⟨?_, blockOf_update hpage hi (fun q hq => ?_) fun j hj q => ?_⟩
    · rw [blockOf_at hpage hi, hrole]
      rfl
    · unfold opened fresh
      rw [Function.update_self, hrole, block_free]
      -- the chunks of the page but for the first one, none of which is handed out
      have hnone : ∀ m, m ≠ reserved pool.sizes shift →
          decide (m ≤ reserved pool.sizes shift) = decide (m < reserved pool.sizes shift) :=
        fun m hm => decide_eq_decide.mpr ⟨fun hle => by omega, fun hlt => by omega⟩
      rw [block_chunks hproper hmax hnone hn (Nat.le_refl _) hq,
        if_pos (decide_eq_true (Nat.le_refl _))]
      congr 1
      refine if_neg fun hand => ?_
      have hlt := of_decide_eq_true hand.2.2
      omega
    · unfold opened
      rw [Function.update_of_ne hj, hvalid.cut_block hi hrole Nat.one_pos hj]
  | @run i k len hi hrole hk hle =>
    rw [shiftLeft_page hproper]
    have hpage := Nat.mul_div_cancel i (pagesize_pos hproper)
    refine ⟨?_, blockOf_update hpage hi (fun q hq => ?_) fun j hj q => ?_⟩
    · rw [blockOf_at hpage hi, hrole]
      rfl
    · rw [cut_self, hrole, block_free]
      unfold Role.block
      dsimp only
      refine if_congr ?_ rfl rfl
      rw [← hq]
      exact ⟨fun hmod => (Nat.div_mul_cancel (Nat.dvd_of_mod_eq_zero hmod)).symm,
        fun heq => heq ▸ Nat.mul_mod_left _ _⟩
    · exact hvalid.cut_block hi hrole hk hj q

/-- What the pages are for when a block has been given back. -/
inductive Gives (sizes : SlabSizes) (pages : Nat) (roles : Nat → Role) :
    Nat → (Nat → Role) → Prop
  | run {i len : Nat} (hi : i < pages) (hrole : roles i = .run len) :
      Gives sizes pages roles (i * sizes.pagesize) (Function.update roles i (.free len))
  | next {i shift n : Nat} {busy : Nat → Bool} (hi : i < pages)
      (hrole : roles i = .chunks shift busy) (hreserved : reserved sizes shift ≤ n)
      (hn : n < count sizes shift)
      (hmore : ∃ m, m ≠ n ∧ reserved sizes shift ≤ m ∧ m < count sizes shift ∧ busy m = true) :
      Gives sizes pages roles (chunk sizes i shift n)
        (Function.update roles i (.chunks shift (Function.update busy n false)))
  | last {i shift n : Nat} {busy : Nat → Bool} (hi : i < pages)
      (hrole : roles i = .chunks shift busy) (hreserved : reserved sizes shift ≤ n)
      (hn : n < count sizes shift)
      (hlast : ∀ m, reserved sizes shift ≤ m → m < count sizes shift → busy m = true → m = n) :
      Gives sizes pages roles (chunk sizes i shift n) (Function.update roles i (.free 1))

theorem Gives.block (hvalid : Valid pool lists roles)
    (hgives : Gives pool.sizes pool.pages roles p roles') :
    blockOf pool.sizes pool.pages roles' =
      Function.update (blockOf pool.sizes pool.pages roles) p none := by
  have hproper := hvalid.proper
  cases hgives with
  | @run i len hi hrole =>
    have hpage := Nat.mul_div_cancel i (pagesize_pos hproper)
    refine blockOf_update hpage hi (fun q hq => ?_) fun j hj q => ?_
    · rw [Function.update_self, hrole, block_free]
      unfold Role.block
      dsimp only
      split
      · rfl
      · next hne =>
        refine (if_neg fun hmod => hne ?_).symm
        rw [← hq, Nat.div_mul_cancel (Nat.dvd_of_mod_eq_zero hmod)]
    · rw [Function.update_of_ne hj]
  | @next i shift n busy hi hrole hreserved hn hmore =>
    have hmax := (hvalid.chunks hi hrole).2.1
    have hcleared : ¬ Function.update busy n false n = true := by
      rw [Function.update_self]
      exact Bool.false_ne_true
    refine blockOf_update (chunk_page hproper hmax hn) hi (fun q hq => ?_) fun j hj q => ?_
    · rw [Function.update_self, hrole, block_chunks hproper hmax
        (fun m hm => Function.update_of_ne hm _ _) hn hreserved hq, if_neg hcleared]
    · rw [Function.update_of_ne hj]
  | @last i shift n busy hi hrole hreserved hn hlast =>
    have hmax := (hvalid.chunks hi hrole).2.1
    refine blockOf_update (chunk_page hproper hmax hn) hi (fun q hq => ?_) fun j hj q => ?_
    · rw [Function.update_self, hrole, block_free]
      split
      · rfl
      · next hne =>
        unfold Role.block
        dsimp only
        refine (if_neg fun hand => hne ?_).symm
        have hsame := hlast _ hand.2.1 (number_lt hproper hmax q) hand.2.2
        rw [← hsame, ← hq]
        exact eq_chunk hproper hmax hand.1
    · rw [Function.update_of_ne hj]

end SlabPool

end Libsax.Memory
