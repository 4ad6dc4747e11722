import Libsax.Memory.SlabLists
import Libsax.Memory.SlabBits
import Mathlib.Algebra.Ring.Nat

/-! What the pages of a slab pool are for: runs of free pages and of pages that are handed out, and
pages of chunks. -/
namespace Libsax.Memory

/-- Sizes for which no shift of the code overflows. -/
structure SlabSizes.Proper (sizes : SlabSizes) : Prop where
  least : 9 ≤ sizes.pagesizeShift
  most : sizes.pagesizeShift ≤ 13
  pagesize : sizes.pagesize = 2 ^ sizes.pagesizeShift
  maxSize : sizes.maxSize = 2 ^ (sizes.pagesizeShift - 1)
  exactSize : sizes.exactSize = 2 ^ sizes.exactShift
  exactShift : sizes.exactShift = sizes.pagesizeShift - 6

theorem slabSetup_proper {k : Nat} (hleast : 9 ≤ k) (hmost : k ≤ 13) :
    (slabSetup (2 ^ k)).Proper := by
  have hsplit : 2 ^ k / (8 * 8) = 2 ^ (k - 6) := by
    rw [show 8 * 8 = 2 ^ 6 by rfl, Nat.pow_div (by omega) (by omega)]
  have hhalf : 2 ^ k / 2 = 2 ^ (k - 1) := by
    rw [← Nat.pow_div (by omega : 1 ≤ k) (by omega), Nat.pow_one]
  refine ⟨?_, ?_, ?_, ?_, ?_, ?_⟩ <;>
    simp only [slabSetup, Nat.log2_two_pow, hsplit, hhalf] <;> assumption

/-- What a page is for. `inner` is one behind the first page of a run. -/
inductive Role where
  | free (len : Nat)
  | run (len : Nat)
  | inner
  | chunks (shift : Nat) (busy : Nat → Bool)

namespace SlabPool

def count (sizes : SlabSizes) (shift : Nat) : Nat := 2 ^ (sizes.pagesizeShift - shift)

/-- How many of them are not handed out. -/
def reserved (sizes : SlabSizes) (shift : Nat) : Nat :=
  if shift < sizes.exactShift then header sizes shift else 0

def taken (pool : SlabPool) (i shift n : Nat) : Bool :=
  if shift < pool.sizes.exactShift then (pool.bitmap i (n / 64)).getLsbD (n % 64)
  else if shift = pool.sizes.exactShift then (pool.node (.page i)).slab.getLsbD n
  else (pool.node (.page i)).slab.getLsbD (slabMapShift + n)

/-- What the word of a page of chunks says beside the bits. -/
def Labelled (pool : SlabPool) (i shift : Nat) : Prop :=
  if shift < pool.sizes.exactShift then (pool.node (.page i)).slab = BitVec.ofNat 64 shift
  else if shift = pool.sizes.exactShift then True
  else (pool.node (.page i)).slab &&& slabShiftMask = BitVec.ofNat 64 shift ∧
    ∀ n, count pool.sizes shift ≤ n → n < 32 →
      (pool.node (.page i)).slab.getLsbD (slabMapShift + n) = false

theorem taken_small {pool : SlabPool} {shift : Nat} (hsmall : shift < pool.sizes.exactShift)
    (i n : Nat) : pool.taken i shift n = (pool.bitmap i (n / 64)).getLsbD (n % 64) := if_pos hsmall

theorem taken_exact {pool : SlabPool} {shift : Nat} (hexact : shift = pool.sizes.exactShift)
    (i n : Nat) : pool.taken i shift n = (pool.node (.page i)).slab.getLsbD n :=
  (if_neg (by omega)).trans (if_pos hexact)

theorem taken_big {pool : SlabPool} {shift : Nat} (hbig : pool.sizes.exactShift < shift)
    (i n : Nat) : pool.taken i shift n = (pool.node (.page i)).slab.getLsbD (slabMapShift + n) :=
  (if_neg (by omega)).trans (if_neg (by omega))

theorem labelled_exact {pool : SlabPool} {shift : Nat} (hexact : shift = pool.sizes.exactShift)
    (i : Nat) : pool.Labelled i shift := by
  unfold Labelled
  rw [if_neg (by omega), if_pos hexact]
  trivial

theorem labelled_small {pool : SlabPool} {shift : Nat} (hsmall : shift < pool.sizes.exactShift)
    {i : Nat} : pool.Labelled i shift ↔ (pool.node (.page i)).slab = BitVec.ofNat 64 shift := by
  unfold Labelled
  rw [if_pos hsmall]

theorem labelled_big {pool : SlabPool} {shift : Nat} (hbig : pool.sizes.exactShift < shift)
    {i : Nat} : pool.Labelled i shift ↔
      (pool.node (.page i)).slab &&& slabShiftMask = BitVec.ofNat 64 shift ∧
      ∀ n, count pool.sizes shift ≤ n → n < 32 →
        (pool.node (.page i)).slab.getLsbD (slabMapShift + n) = false := by
  unfold Labelled
  rw [if_neg (by omega), if_neg (by omega)]

/-- The page looks as one of its role does. -/
def Shows (pool : SlabPool) (i : Nat) : Role → Prop
  | .free len => (pool.node (.page i)).slab = BitVec.ofNat 64 len ∧
      (pool.node (.page i)).prev.2 = .page
  | .run len => (pool.node (.page i)).slab = BitVec.ofNat 64 len ||| slabPageStart ∧
      (pool.node (.page i)).prev.2 = .page
  | .inner => ((pool.node (.page i)).slab = 0 ∨ (pool.node (.page i)).slab = slabPageBusy) ∧
      (pool.node (.page i)).prev.2 = .page
  | .chunks shift busy => minShift ≤ shift ∧ shift < pool.sizes.pagesizeShift ∧
      (pool.node (.page i)).prev.2 = typeOf pool.sizes (some (shift - minShift)) ∧
      pool.Labelled i shift ∧ (∀ n, n < count pool.sizes shift → busy n = pool.taken i shift n) ∧
      ∀ n, n < reserved pool.sizes shift → busy n = true

def Home (sizes : SlabSizes) : Role → Option Nat → Prop
  | .free _, none => True
  | .chunks shift busy, some slot => shift = slot + minShift ∧
      ∃ n, n < count sizes shift ∧ busy n = false
  | _, _ => False

def IsRun (role : Role) (len : Nat) : Prop := role = .free len ∨ role = .run len

/-- Runs have pages, all of which are there and belong to no other one. -/
structure Tiled (pages : Nat) (roles : Nat → Role) : Prop where
  tiles : ∀ i len, i < pages → IsRun (roles i) len → 0 < len ∧ i + len ≤ pages ∧
    ∀ j, i < j → j < i + len → roles j = .inner
  covered : ∀ j, j < pages → roles j = .inner →
    ∃ i len, IsRun (roles i) len ∧ i < j ∧ j < i + len

structure Valid (pool : SlabPool) (lists : Option Nat → List Nat) (roles : Nat → Role) : Prop where
  proper : pool.sizes.Proper
  fits : pool.pages * pool.sizes.pagesize ≤ pool.extent
  extent : pool.extent < 2 ^ 64
  linked : Lists pool lists
  home : ∀ h i, i ∈ lists h ↔ i < pool.pages ∧ Home pool.sizes (roles i) h
  shows : ∀ i, i < pool.pages → pool.Shows i (roles i)
  lone : ∀ i, i < pool.pages → (∀ h, ¬ Home pool.sizes (roles i) h) →
    (pool.node (.page i)).next = none
  tiled : Tiled pool.pages roles

variable {pool pool' : SlabPool} {lists : Option Nat → List Nat} {roles : Nat → Role}
  {i j k len rest : Nat} {page : SlabPage}

theorem Valid.few (hvalid : Valid pool lists roles) : pool.pages < 2 ^ 55 := by
  have hfits := hvalid.fits
  have hextent := hvalid.extent
  have hsize : 2 ^ 9 ≤ pool.sizes.pagesize := by
    rw [hvalid.proper.pagesize]
    exact Nat.pow_le_pow_right (by omega) hvalid.proper.least
  by_contra hmany
  have hproduct : 2 ^ 55 * 2 ^ 9 ≤ pool.pages * pool.sizes.pagesize :=
    Nat.mul_le_mul (Nat.le_of_not_lt hmany) hsize
  omega

namespace Tiled

variable {pages : Nat}

theorem not_inner {role : Role} (hrun : IsRun role len) : role ≠ .inner := by
  rintro rfl
  rcases hrun with heq | heq <;> cases heq

theorem apart (htiled : Tiled pages roles) {len' : Nat} (hi : i < pages)
    (hrun : IsRun (roles i) len) (hother : IsRun (roles j) len') (hlt : i < j) : i + len ≤ j := by
  by_contra hinside
  exact not_inner hother ((htiled.tiles i len hi hrun).2.2 j hlt (Nat.lt_of_not_le hinside))

end Tiled

/-- A run of so many free pages after the first `k` of them have been taken. -/
def cut (roles : Nat → Role) (i k len : Nat) (j : Nat) : Role :=
  if j = i then .run k else if j = i + k ∧ k < len then .free (len - k) else roles j

@[simp] theorem cut_self : cut roles i k len i = .run k := if_pos rfl

theorem cut_rest (hk : 0 < k) (hmore : k < len) : cut roles i k len (i + k) = .free (len - k) :=
  (if_neg (by omega)).trans (if_pos ⟨rfl, hmore⟩)

theorem cut_of_ne (hne : j ≠ i) (hnot : ¬ (j = i + k ∧ k < len)) :
    cut roles i k len j = roles j := (if_neg hne).trans (if_neg hnot)

theorem Tiled.cut {pages : Nat} (htiled : Tiled pages roles) (hi : i < pages)
    (hrole : roles i = .free len) (hk : 0 < k) (hle : k ≤ len) :
    Tiled pages (cut roles i k len) := by
  obtain ⟨-, htile, hinner⟩ := htiled.tiles i len hi (.inl hrole)
  have hrun : IsRun (roles i) len := .inl hrole
  -- the pages that were inside of a run are so still, but for the first one of what is left
  have hkept : ∀ j, roles j = .inner → ¬ (j = i + k ∧ k < len) →
      SlabPool.cut roles i k len j = .inner := by
    intro j hj hnot
    rw [cut_of_ne (fun heq => ?_) hnot, hj]
    rw [heq, hrole] at hj
    cases hj
  refine ⟨fun j len' hj hother => ?_, fun j hj hother => ?_⟩
  · by_cases hself : j = i
    · subst hself
      rw [cut_self] at hother
      obtain heq | heq := hother <;> cases heq
      exact ⟨hk, by omega, fun m hm hlt => hkept m (hinner m hm (by omega)) (by omega)⟩
    by_cases hrest : j = i + k ∧ k < len
    · obtain ⟨rfl, hmore⟩ := hrest
      rw [cut_rest hk hmore] at hother
      obtain heq | heq := hother <;> cases heq
      exact ⟨by omega, by omega, fun m hm hlt => hkept m (hinner m (by omega) (by omega)) (by omega)⟩
    · rw [cut_of_ne hself hrest] at hother
      obtain ⟨hpos, hle', hinside⟩ := htiled.tiles j len' hj hother
      refine ⟨hpos, hle', fun m hm hlt => hkept m (hinside m hm hlt) ?_⟩
      rintro ⟨rfl, hmore⟩
      rcases Nat.lt_or_gt_of_ne hself with hbefore | hbehind
      · have hapart := htiled.apart hj hother hrun hbefore
        omega
      · have hapart := htiled.apart hi hrun hother hbehind
        omega
  · have hne : j ≠ i := by
      rintro rfl
      rw [cut_self] at hother
      cases hother
    have hnot : ¬ (j = i + k ∧ k < len) := by
      rintro ⟨rfl, hmore⟩
      rw [cut_rest hk hmore] at hother
      cases hother
    rw [cut_of_ne hne hnot] at hother
    obtain ⟨m, len', hm, hlt, hinside⟩ := htiled.covered j hj hother
    by_cases hself : m = i
    · subst hself
      obtain rfl : len' = len := by
        rw [hrole] at hm
        rcases hm with heq | heq <;> cases heq
        rfl
      by_cases hfirst : j < m + k
      · exact ⟨m, k, .inr cut_self, hlt, hfirst⟩
      · exact ⟨m + k, len' - k, .inl (cut_rest hk (by omega)), by omega, by omega⟩
    · refine ⟨m, len', ?_, hlt, hinside⟩
      rw [cut_of_ne hself]
      · exact hm
      · rintro ⟨rfl, hmore⟩
        exact not_inner hm (hinner (i + k) (by omega) (by omega))

theorem inner_not_home {sizes : SlabSizes} {h : Option Nat} : ¬ Home sizes .inner h := by
  cases h <;> exact id

theorem run_not_home {sizes : SlabSizes} {h : Option Nat} : ¬ Home sizes (.run len) h := by
  cases h <;> exact id

theorem home_free {sizes : SlabSizes} {h : Option Nat} : Home sizes (.free len) h ↔ h = none := by
  cases h with
  | none => exact ⟨fun _ => rfl, fun _ => trivial⟩
  | some slot => exact ⟨False.elim, fun heq => nomatch heq⟩

theorem Shows.congr {role : Role} (hshows : pool.Shows i role) (hsizes : pool'.sizes = pool.sizes)
    (hslab : (pool'.node (.page i)).slab = (pool.node (.page i)).slab)
    (htype : (pool'.node (.page i)).prev.2 = (pool.node (.page i)).prev.2)
    (hbitmap : pool'.bitmap i = pool.bitmap i) : pool'.Shows i role := by
  cases role with
  | free len => exact ⟨hslab.trans hshows.1, htype.trans hshows.2⟩
  | run len => exact ⟨hslab.trans hshows.1, htype.trans hshows.2⟩
  | inner =>
    unfold Shows
    rw [hslab, htype]
    exact hshows
  | chunks shift busy =>
    unfold Shows Labelled taken
    rw [hsizes, hslab, htype, hbitmap]
    exact hshows

theorem setRest_eq (hrest : i + rest < pool.pages ∨ rest = 0) :
    ∃ pool', pool.setRest i page rest = some pool' ∧ pool'.sizes = pool.sizes ∧
      pool'.pages = pool.pages ∧ pool'.extent = pool.extent ∧ pool'.bitmap = pool.bitmap ∧
      (∀ h, pool'.node (headRef h) = pool.node (headRef h)) ∧
      ∀ j, pool'.node (.page j) =
        if i < j ∧ j ≤ i + rest then page else pool.node (.page j) := by
  induction rest with
  | zero =>
    refine ⟨pool, rfl, rfl, rfl, rfl, rfl, fun _ => rfl, fun j => ?_⟩
    rw [if_neg (by omega)]
  | succ rest ih =>
    obtain ⟨next, hcall, hsizes, hpages, hextent, hbitmap, hheads, hnodes⟩ := ih (by omega)
    have hderef : next.deref (some (.page (i + rest + 1))) = some (.page (i + rest + 1)) :=
      deref_page (by omega)
    refine ⟨next.setNode (.page (i + rest + 1)) page, ?_, hsizes, hpages, hextent, hbitmap,
      fun h => ?_, fun j => ?_⟩
    · unfold setRest
      rw [hcall]
      exact congrArg (Option.bind · _) hderef
    · rw [setNode_node, if_neg (headRef_ne_page h _)]
      exact hheads h
    · rw [setNode_node]
      by_cases hj : j = i + rest + 1
      · rw [if_pos (congrArg _ hj), if_pos (by omega)]
      · rw [if_neg fun heq : SlabRef.page j = .page (i + rest + 1) => hj (page_inj heq), hnodes]
        by_cases hinside : i < j ∧ j ≤ i + rest
        · rw [if_pos hinside, if_pos (by omega)]
        · rw [if_neg hinside, if_neg (by omega)]

theorem Valid.dequeue (hvalid : Valid pool lists roles) {left right : List Nat}
    (hlist : lists none = left ++ i :: right) (hrole : roles i = .free len) (hk : 0 < k)
    (hle : k ≤ len) :
    ∃ pool' list, pool.dequeue i k = some pool' ∧
      Lists pool' (Function.update lists none list) ∧ pool'.sizes = pool.sizes ∧
      pool'.pages = pool.pages ∧ pool'.extent = pool.extent ∧ pool'.bitmap = pool.bitmap ∧
      Elsewhere pool pool' none list ∧
      (∀ j, j ∈ list ↔ (j ∈ lists none ∧ j ≠ i) ∨ (j = i + k ∧ k < len)) ∧
      (∀ j, (pool'.node (.page j)).slab = if j = i + k ∧ k < len then BitVec.ofNat 64 (len - k)
        else (pool.node (.page j)).slab) ∧
      ∀ j, (pool'.node (.page j)).prev.2 =
        if j = i + k ∧ k < len then .page else (pool.node (.page j)).prev.2 := by
  have hmem : i ∈ lists none := hlist ▸ List.mem_append_right _ List.mem_cons_self
  have hi := hvalid.linked.inside none i hmem
  obtain ⟨-, htile, hinner⟩ := hvalid.tiled.tiles i len hi (.inl hrole)
  have hshows := hvalid.shows i hi
  rw [hrole] at hshows
  have hfew := hvalid.few
  have hslab : (pool.node (.page i)).slab.toNat = len := by
    rw [hshows.1, BitVec.toNat_ofNat, Nat.mod_eq_of_lt (by omega)]
  have hnodup := (hvalid.linked.loop none trivial).nodup
  have hothers : ∀ j, j ∈ left ++ right ↔ j ∈ lists none ∧ j ≠ i := by
    intro j
    rw [hlist] at hnodup ⊢
    have hnot := (List.nodup_cons.mp (List.nodup_middle.mp
      (List.Nodup.of_map _ (List.nodup_cons.mp hnodup).2))).1
    constructor
    · exact fun hj => ⟨((List.sublist_cons_self i right).append_left left).subset hj,
        fun heq => hnot (heq ▸ hj)⟩
    · rintro ⟨hj, hne⟩
      rcases List.mem_append.mp hj with hleft | hright
      · exact List.mem_append_left _ hleft
      · exact List.mem_append_right _ ((List.mem_cons.mp hright).resolve_left hne)
  unfold SlabPool.dequeue
  rw [hslab]
  by_cases hmore : len > k
  · rw [if_pos hmore]
    have hrest := hinner (i + k) (by omega) (by omega)
    have hfresh : ∀ h, i + k ∉ lists h := by
      intro h hmem
      have hhome := ((hvalid.home h (i + k)).mp hmem).2
      rw [hrest] at hhome
      exact inner_not_home hhome
    obtain ⟨pool', hcall, hlists, hsizes, hpages, hextent, hbitmap, helsewhere, hslabs, htypes⟩ :=
      hvalid.linked.split hlist hfresh (by omega)
    refine ⟨pool', _, hcall, hlists, hsizes, hpages, hextent, hbitmap, helsewhere, ?_, ?_, ?_⟩
    · intro j
      rw [← hothers, List.mem_append, List.mem_append, List.mem_cons]
      tauto
    · intro j
      rw [hslabs, hshows.1]
      by_cases hj : j = i + k
      · rw [if_pos hj, if_pos ⟨hj, hmore⟩, BitVec.ofNat_sub_ofNat_of_le _ _ (by omega) hle]
      · rw [if_neg hj, if_neg fun hand => hj hand.1]
    · intro j
      rw [htypes]
      by_cases hj : j = i + k
      · rw [if_pos hj, if_pos ⟨hj, hmore⟩]
      · rw [if_neg hj, if_neg fun hand => hj hand.1]
  · rw [if_neg hmore]
    obtain ⟨pool', hcall, hlists, hsame, helsewhere, htypes⟩ := hvalid.linked.unlink hlist
    refine ⟨pool', _, hcall, hlists, hsame.sizes, hsame.pages, hsame.extent, hsame.bitmap, helsewhere,
      ?_, ?_, ?_⟩
    · intro j
      rw [hothers]
      exact ⟨.inl, fun hor => hor.resolve_right fun hand => hmore hand.2⟩
    · intro j
      rw [hsame.slab, if_neg fun hand => hmore hand.2]
    · intro j
      rw [htypes, if_neg fun hand => hmore hand.2]

theorem Valid.cut_inside (hvalid : Valid pool lists roles) (hi : i < pool.pages)
    (hrole : roles i = .free len) (hk : 0 < k) (hle : k ≤ len) {j : Nat} (hlt : i < j)
    (hwithin : j ≤ i + (k - 1)) : cut roles i k len j = .inner := by
  obtain ⟨-, -, hinner⟩ := hvalid.tiled.tiles i len hi (.inl hrole)
  rw [cut_of_ne (by omega) (by omega)]
  exact hinner j hlt (by omega)

theorem Valid.cut_home (hvalid : Valid pool lists roles) (hi : i < pool.pages)
    (hrole : roles i = .free len) (hk : 0 < k) (hle : k ≤ len) {list : List Nat}
    (hmem : ∀ j, j ∈ list ↔ (j ∈ lists none ∧ j ≠ i) ∨ (j = i + k ∧ k < len))
    (h : Option Nat) (j : Nat) : j ∈ Function.update lists none list h ↔
      j < pool.pages ∧ Home pool.sizes (cut roles i k len j) h := by
  obtain ⟨-, htile, hinner⟩ := hvalid.tiled.tiles i len hi (.inl hrole)
  have hold : k < len → roles (i + k) = .inner := fun hmore => hinner (i + k) (by omega) (by omega)
  have hlists' : j ∈ Function.update lists none list h ↔
      (j ∈ lists h ∧ (h = none → j ≠ i)) ∨ (h = none ∧ j = i + k ∧ k < len) := by
    by_cases hnone : h = none
    · subst hnone
      rw [Function.update_self, hmem]
      simp
    · rw [Function.update_of_ne hnone]
      simp [hnone]
  rw [hlists', hvalid.home]
  by_cases hself : j = i
  · subst hself
    rw [cut_self, hrole, home_free]
    simp only [run_not_home, and_false, iff_false]
    rintro (⟨⟨-, rfl⟩, hne⟩ | ⟨-, heq, -⟩)
    · exact hne rfl rfl
    · omega
  by_cases hrest : j = i + k ∧ k < len
  · obtain ⟨rfl, hmore⟩ := hrest
    rw [cut_rest hk hmore, hold hmore, home_free]
    simp only [inner_not_home, and_false, false_and, false_or]
    exact ⟨fun hand => ⟨by omega, hand.1⟩, fun hand => ⟨hand.2, trivial, hmore⟩⟩
  · rw [cut_of_ne hself hrest]
    exact ⟨fun hor => (hor.resolve_right fun hand => hrest hand.2).1,
      fun hand => .inl ⟨hand, fun _ => hself⟩⟩

/-- What a pool holds of its pages when some were taken from a run. -/
structure Taken (pool pool' : SlabPool) (i k len : Nat) : Prop where
  sizes : pool'.sizes = pool.sizes
  bitmap : pool'.bitmap = pool.bitmap
  first : pool'.node (.page i) = ⟨BitVec.ofNat 64 k ||| slabPageStart, none, none, .page⟩
  busy : ∀ j, i < j ∧ j ≤ i + (k - 1) → pool'.node (.page j) = ⟨slabPageBusy, none, none, .page⟩
  slab : ∀ j, ¬ (i < j ∧ j ≤ i + (k - 1)) → j ≠ i → (pool'.node (.page j)).slab =
    if j = i + k ∧ k < len then BitVec.ofNat 64 (len - k) else (pool.node (.page j)).slab
  type : ∀ j, ¬ (i < j ∧ j ≤ i + (k - 1)) → j ≠ i → (pool'.node (.page j)).prev.2 =
    if j = i + k ∧ k < len then .page else (pool.node (.page j)).prev.2

theorem Valid.cut_shows (hvalid : Valid pool lists roles) (hi : i < pool.pages)
    (hrole : roles i = .free len) (hk : 0 < k) (hle : k ≤ len) (htaken : Taken pool pool' i k len)
    {j : Nat} (hj : j < pool.pages) : pool'.Shows j (cut roles i k len j) := by
  by_cases hbusy : i < j ∧ j ≤ i + (k - 1)
  · rw [hvalid.cut_inside hi hrole hk hle hbusy.1 hbusy.2]
    unfold Shows
    rw [htaken.busy j hbusy]
    exact ⟨.inr rfl, rfl⟩
  by_cases hself : j = i
  · subst hself
    rw [cut_self]
    unfold Shows
    rw [htaken.first]
    exact ⟨rfl, rfl⟩
  by_cases hrest : j = i + k ∧ k < len
  · rw [hrest.1, cut_rest hk hrest.2, ← hrest.1]
    unfold Shows
    rw [htaken.slab j hbusy hself, if_pos hrest, htaken.type j hbusy hself, if_pos hrest]
    exact ⟨rfl, rfl⟩
  · rw [cut_of_ne hself hrest]
    refine (hvalid.shows j hj).congr htaken.sizes ?_ ?_ ?_
    · rw [htaken.slab j hbusy hself, if_neg hrest]
    · rw [htaken.type j hbusy hself, if_neg hrest]
    · exact congrFun htaken.bitmap j

theorem Valid.takeRun (hvalid : Valid pool lists roles) {left right : List Nat}
    (hlist : lists none = left ++ i :: right) (hrole : roles i = .free len) (hk : 0 < k)
    (hle : k ≤ len) :
    ∃ pool' lists', pool.takeRun i k = some pool' ∧ Kept pool pool' ∧
      Valid pool' lists' (cut roles i k len) := by
  obtain ⟨next, list, hcall, hlists, hsizes, hpages, hextent, hbitmap, helsewhere, hmem, hslabs,
    htypes⟩ := hvalid.dequeue hlist hrole hk hle
  have hi := hvalid.linked.inside none i (hlist ▸ List.mem_append_right _ List.mem_cons_self)
  obtain ⟨-, htile, -⟩ := hvalid.tiled.tiles i len hi (.inl hrole)
  obtain ⟨pool', hrest, hsizes', hpages', hextent', hbitmap', hheads', hnodes'⟩ :=
    @setRest_eq (next.setNode (.page i) ⟨BitVec.ofNat 64 k ||| slabPageStart, none, none, .page⟩) i
      (k - 1) ⟨slabPageBusy, none, none, .page⟩ (show i + (k - 1) < next.pages ∨ k - 1 = 0 by omega)
  have hhome := hvalid.cut_home hi hrole hk hle hmem
  have hfresh : ∀ h j, j ∈ Function.update lists none list h →
      ¬ (i < j ∧ j ≤ i + (k - 1)) ∧ j ≠ i := by
    intro h j hj
    have hrole' := ((hhome h j).mp hj).2
    refine ⟨fun hand => ?_, ?_⟩
    · rw [hvalid.cut_inside hi hrole hk hle hand.1 hand.2] at hrole'
      exact inner_not_home hrole'
    · rintro rfl
      rw [cut_self] at hrole'
      exact run_not_home hrole'
  have hnodes : ∀ j, pool'.node (.page j) = if i < j ∧ j ≤ i + (k - 1) then
      ⟨slabPageBusy, none, none, .page⟩ else if j = i then
        ⟨BitVec.ofNat 64 k ||| slabPageStart, none, none, .page⟩ else next.node (.page j) := by
    intro j
    rw [hnodes', setNode_node]
    by_cases hself : j = i
    · rw [if_pos (congrArg _ hself), if_pos hself]
    · rw [if_neg fun heq : SlabRef.page j = .page i => hself (page_inj heq), if_neg hself]
  have htaken : Taken pool pool' i k len :=
    { sizes := hsizes'.trans hsizes
      bitmap := hbitmap'.trans hbitmap
      first := by rw [hnodes, if_neg (by omega), if_pos rfl]
      busy := fun j hbusy => by rw [hnodes, if_pos hbusy]
      slab := fun j hbusy hself => by rw [hnodes, if_neg hbusy, if_neg hself, hslabs]
      type := fun j hbusy hself => by rw [hnodes, if_neg hbusy, if_neg hself, htypes] }
  refine ⟨pool', Function.update lists none list, ?_,
    ⟨htaken.sizes, hpages'.trans hpages, hextent'.trans hextent⟩,
    htaken.sizes ▸ hvalid.proper, ?_, ?_, ?_, ?_, ?_, ?_, ?_⟩
  · unfold SlabPool.takeRun
    rw [hcall]
    simp only [Option.bind_eq_bind, Option.bind_some]
    rw [if_neg (Nat.ne_of_gt hk), hrest]
  · rw [hpages'.trans hpages, htaken.sizes, hextent'.trans hextent]
    exact hvalid.fits
  · rw [hextent'.trans hextent]
    exact hvalid.extent
  · refine hlists.congr hsizes' hpages' (fun h => ?_) (fun h j hj => ?_) fun h j hj => ?_
    · rw [hheads', setNode_node, if_neg (headRef_ne_page h i)]
    · rw [hnodes, if_neg (hfresh h j hj).1, if_neg (hfresh h j hj).2]
    · rw [hnodes, if_neg (hfresh h j hj).1, if_neg (hfresh h j hj).2]
  · rw [hpages'.trans hpages, htaken.sizes]
    exact hhome
  · rw [hpages'.trans hpages]
    exact fun j hj => hvalid.cut_shows hi hrole hk hle htaken hj
  · rw [hpages'.trans hpages, htaken.sizes]
    intro j hj hnone
    rw [hnodes]
    by_cases hbusy : i < j ∧ j ≤ i + (k - 1)
    · rw [if_pos hbusy]
    by_cases hself : j = i
    · rw [if_neg hbusy, if_pos hself]
    have hrest : ¬ (j = i + k ∧ k < len) := by
      rintro ⟨rfl, hmore⟩
      exact hnone none (cut_rest hk hmore ▸ trivial)
    have hnotMem : j ∉ list := fun hj' => hnone none (((hhome none j).mp (by
      rw [Function.update_self]
      exact hj')).2)
    rw [if_neg hbusy, if_neg hself, helsewhere.page j hnotMem]
    rw [cut_of_ne hself hrest] at hnone
    exact hvalid.lone j hj hnone
  · rw [hpages'.trans hpages]
    exact hvalid.tiled.cut hi hrole hk hle

theorem Valid.allocPages_from (hvalid : Valid pool lists roles) (hk : 0 < k) {fuel : Nat}
    {left right : List Nat} (hlist : lists none = left ++ right) (hfuel : right.length < fuel)
    (hleft : ∀ i ∈ left, ∀ len, roles i = .free len → len < k) :
    (allocPages fuel pool ((right.map SlabRef.page).headD .free) k = some (pool, none) ∧
      ∀ i len, i < pool.pages → roles i = .free len → len < k) ∨
    ∃ i len pool' lists',
      allocPages fuel pool ((right.map SlabRef.page).headD .free) k = some (pool', some i) ∧
      i < pool.pages ∧ roles i = .free len ∧ k ≤ len ∧ Kept pool pool' ∧
      Valid pool' lists' (cut roles i k len) := by
  induction right generalizing fuel left with
  | nil =>
    obtain ⟨fuel, rfl⟩ := Nat.exists_eq_add_one_of_ne_zero (show fuel ≠ 0 by omega)
    refine .inl ⟨rfl, fun i len hi hrole => hleft i ?_ len hrole⟩
    rw [← List.append_nil left, ← hlist, hvalid.home]
    exact ⟨hi, hrole ▸ trivial⟩
  | cons i right ih =>
    obtain ⟨fuel, rfl⟩ := Nat.exists_eq_add_one_of_ne_zero (show fuel ≠ 0 by omega)
    have hmem : i ∈ lists none := hlist ▸ List.mem_append_right _ List.mem_cons_self
    obtain ⟨hi, hhome⟩ := (hvalid.home none i).mp hmem
    obtain ⟨len, hrole⟩ : ∃ len, roles i = .free len := by
      cases hrole : roles i with
      | free len => exact ⟨len, rfl⟩
      | run len =>
        rw [hrole] at hhome
        exact absurd hhome run_not_home
      | inner =>
        rw [hrole] at hhome
        exact absurd hhome inner_not_home
      | chunks shift busy =>
        rw [hrole] at hhome
        exact False.elim hhome
    have hslab : (pool.node (.page i)).slab.toNat = len := by
      have hshows := hvalid.shows i hi
      have htile := (hvalid.tiled.tiles i len hi (.inl hrole)).2.1
      have hfew := hvalid.few
      rw [hrole] at hshows
      rw [hshows.1, BitVec.toNat_ofNat, Nat.mod_eq_of_lt (by omega)]
    rw [List.map_cons, List.headD_cons, allocPages, hslab]
    by_cases hmany : len ≥ k
    · obtain ⟨pool', lists', hcall, hnext⟩ := hvalid.takeRun hlist hrole hk hmany
      refine .inr ⟨i, len, pool', lists', ?_, hi, hrole, hmany, hnext⟩
      rw [if_pos hmany, hcall]
      rfl
    · have hnext := hvalid.linked.next hlist
      have hderef : pool.deref (pool.node (.page i)).next =
          some ((right.map SlabRef.page).headD .free) := by
        rw [hnext]
        refine hvalid.linked.deref (h := none) trivial ?_
        cases right with
        | nil => exact List.mem_cons_self
        | cons j right =>
          refine List.mem_cons_of_mem _ (mem_pages.mpr ?_)
          rw [hlist]
          exact List.mem_append_right _ (List.mem_cons_of_mem _ List.mem_cons_self)
      rw [if_neg hmany, hderef]
      refine @ih fuel (left ++ [i]) ?_ (by rw [List.length_cons] at hfuel; omega) ?_
      · rw [hlist, List.append_assoc, List.singleton_append]
      · intro j hj len' hrole'
        rcases List.mem_append.mp hj with hj | hj
        · exact hleft j hj len' hrole'
        · obtain rfl := List.mem_singleton.mp hj
          rw [hrole] at hrole'
          cases hrole'
          exact Nat.lt_of_not_le hmany

theorem Valid.allocPages (hvalid : Valid pool lists roles) (hk : 0 < k) :
    ((do SlabPool.allocPages (pool.pages + 2) pool (← pool.deref (pool.node .free).next) k) =
      some (pool, none) ∧ ∀ i len, i < pool.pages → roles i = .free len → len < k) ∨
    ∃ i len pool' lists',
      (do SlabPool.allocPages (pool.pages + 2) pool (← pool.deref (pool.node .free).next) k) =
        some (pool', some i) ∧
      i < pool.pages ∧ roles i = .free len ∧ k ≤ len ∧ Kept pool pool' ∧
      Valid pool' lists' (cut roles i k len) := by
  have hfirst := hvalid.linked.first (h := none) trivial
  have hderef : pool.deref (pool.node .free).next =
      some (((lists none).map SlabRef.page).headD .free) := by
    refine (congrArg pool.deref hfirst).trans (hvalid.linked.deref (h := none) trivial ?_)
    cases lists none with
    | nil => exact List.mem_cons_self
    | cons j rest => exact List.mem_cons_of_mem _ List.mem_cons_self
  have hlength := hvalid.linked.length_le (h := none) trivial
  rw [hderef]
  exact hvalid.allocPages_from hk (List.nil_append _).symm (by omega) fun i hi => nomatch hi

end SlabPool

end Libsax.Memory
