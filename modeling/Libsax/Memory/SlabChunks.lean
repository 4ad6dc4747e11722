import Libsax.Memory.SlabReturn

/-! Chunks are taken from the first page that has one of their size, which leaves its list when it
has no other one. -/
namespace Libsax.Memory.SlabPool

open Libsax.Lib

variable {pool pool' : SlabPool} {lists lists' : Option Nat → List Nat} {roles : Nat → Role}
  {h : Option Nat} {i j m n shift slot : Nat} {busy busy' : Nat → Bool} {c : Prop} [Decidable c]

/-- Beside links, only one page has changed. -/
structure Changed (pool pool' : SlabPool) (i : Nat) : Prop where
  sizes : pool'.sizes = pool.sizes
  pages : pool'.pages = pool.pages
  extent : pool'.extent = pool.extent
  bitmap : ∀ j, j ≠ i → pool'.bitmap j = pool.bitmap j
  slab : ∀ j, j ≠ i → (pool'.node (.page j)).slab = (pool.node (.page j)).slab
  type : ∀ j, j ≠ i → (pool'.node (.page j)).prev.2 = (pool.node (.page j)).prev.2

theorem Tiled.chunks {pages : Nat} (htiled : Tiled pages roles)
    (hrole : roles i = .run 1 ∨ ∃ shift busy, roles i = .chunks shift busy) :
    Tiled pages (Function.update roles i (.chunks shift busy)) := by
  have hinner : ∀ j, roles j = .inner →
      Function.update roles i (.chunks shift busy) j = .inner := by
    intro j hj
    rw [Function.update_of_ne, hj]
    rintro rfl
    rcases hrole with heq | ⟨_, _, heq⟩ <;> rw [heq] at hj <;> cases hj
  refine ⟨fun j len hj hother => ?_, fun j hj hother => ?_⟩
  · have hself : j ≠ i := by
      rintro rfl
      rw [Function.update_self] at hother
      rcases hother with heq | heq <;> cases heq
    rw [Function.update_of_ne hself] at hother
    obtain ⟨hpos, hle, hinside⟩ := htiled.tiles j len hj hother
    exact ⟨hpos, hle, fun m hm hlt => hinner m (hinside m hm hlt)⟩
  · have hself : j ≠ i := by
      rintro rfl
      rw [Function.update_self] at hother
      cases hother
    rw [Function.update_of_ne hself] at hother
    obtain ⟨m, len, hm, hlt, hinside⟩ := htiled.covered j hj hother
    refine ⟨m, len, ?_, hlt, hinside⟩
    rw [Function.update_of_ne]
    · exact hm
    · rintro rfl
      rcases hrole with heq | ⟨_, _, heq⟩ <;> rw [heq] at hm <;> rcases hm with hm | hm <;> cases hm
      omega

theorem Valid.becomes (hvalid : Valid pool lists roles) (hi : i < pool.pages)
    (hrole : roles i = .run 1 ∨ ∃ shift busy, roles i = .chunks shift busy)
    (hchanged : Changed pool pool' i) (hlists : Lists pool' lists')
    (hothers : ∀ h j, j ≠ i → (j ∈ lists' h ↔ j ∈ lists h))
    (hself : ∀ h, i ∈ lists' h ↔ Home pool.sizes (.chunks shift busy) h)
    (hshows : pool'.Shows i (.chunks shift busy))
    (hnexts : ∀ j, j ≠ i → (∀ h, j ∉ lists' h) →
      (pool'.node (.page j)).next = (pool.node (.page j)).next)
    (hnext : (∀ h, i ∉ lists' h) → (pool'.node (.page i)).next = none) :
    Valid pool' lists' (Function.update roles i (.chunks shift busy)) where
  proper := hchanged.sizes ▸ hvalid.proper
  fits := by
    rw [hchanged.sizes, hchanged.pages, hchanged.extent]
    exact hvalid.fits
  extent := by
    rw [hchanged.extent]
    exact hvalid.extent
  linked := hlists
  home h j := by
    rw [hchanged.pages, hchanged.sizes]
    by_cases heq : j = i
    · subst heq
      rw [Function.update_self, hself]
      exact ⟨fun hhome => ⟨hi, hhome⟩, And.right⟩
    · rw [Function.update_of_ne heq, hothers h j heq]
      exact hvalid.home h j
  shows j hj := by
    rw [hchanged.pages] at hj
    by_cases heq : j = i
    · subst heq
      rw [Function.update_self]
      exact hshows
    · rw [Function.update_of_ne heq]
      exact (hvalid.shows j hj).congr hchanged.sizes (hchanged.slab j heq) (hchanged.type j heq)
        (hchanged.bitmap j heq)
  lone j hj hnone := by
    rw [hchanged.pages] at hj
    rw [hchanged.sizes] at hnone
    by_cases heq : j = i
    · subst heq
      rw [Function.update_self] at hnone
      exact hnext fun h hmem => hnone h ((hself h).mp hmem)
    · rw [Function.update_of_ne heq] at hnone
      have hfresh : ∀ h, j ∉ lists h := fun h hmem => hnone h ((hvalid.home h j).mp hmem).2
      rw [hnexts j heq fun h hmem => hfresh h ((hothers h j heq).mp hmem)]
      exact hvalid.lone j hj hnone
  tiled := by
    rw [hchanged.pages]
    exact hvalid.tiled.chunks hrole

theorem Valid.settle (hvalid : Valid pool lists roles) (next : SlabPool) (hmem : i ∈ lists (some slot))
    (hrole : roles i = .chunks shift busy) (hslot : shift = slot + minShift)
    (hchanged : Changed pool next i) (hbits : next.Shows i (.chunks shift busy'))
    (hheads : ∀ h, next.node (headRef h) = pool.node (headRef h))
    (hnext : ∀ j, (next.node (.page j)).next = (pool.node (.page j)).next)
    (hprev : ∀ j, (next.node (.page j)).prev = (pool.node (.page j)).prev)
    (hc : c ↔ ∀ m, m < count pool.sizes shift → busy' m = true) :
    ∃ pool' lists', next.onlyIf c (·.full i (typeOf pool.sizes (some slot))) = some pool' ∧
      Kept pool pool' ∧ Valid pool' lists' (Function.update roles i (.chunks shift busy')) := by
  have hi := hvalid.linked.inside _ i hmem
  have hlinked : Lists next lists := hvalid.linked.congr hchanged.sizes hchanged.pages
    (fun h => congrArg SlabPage.next (hheads h)) (fun _ j _ => hnext j) fun _ j _ => hprev j
  have hhome : ∀ h, Home pool.sizes (.chunks shift busy') h ↔ h = some slot ∧ ¬ c := by
    intro h
    rw [hc]
    cases h with
    | none => exact ⟨False.elim, fun hand => nomatch hand.1⟩
    | some other =>
      constructor
      · rintro ⟨heq, m, hm, hfree⟩
        refine ⟨congrArg some (by omega), fun hall => ?_⟩
        rw [hall m hm] at hfree
        cases hfree
      · rintro ⟨heq, hnot⟩
        obtain rfl := Option.some.inj heq
        refine ⟨hslot, ?_⟩
        by_contra hnone
        exact hnot fun m hm => eq_true_of_ne_false fun hfree => hnone ⟨m, hm, hfree⟩
  have hself : ∀ h, i ∈ lists h ↔ h = some slot := fun h =>
    ⟨fun hother => hvalid.linked.apart h _ i hother hmem, fun heq => heq ▸ hmem⟩
  unfold onlyIf
  by_cases hfull : c
  · rw [if_pos hfull]
    obtain ⟨apart, lists', hcall, hlists, hsame, hmems, hnodes, htypes⟩ := hlinked.remove hmem
    have hfresh : ∀ h, i ∉ lists' h := fun h hi => ((hmems h i).mp hi).2 rfl
    have hother : ∀ j, j ≠ i → (apart.setNode (.page i) ⟨(apart.node (.page i)).slab, none, none,
        typeOf pool.sizes (some slot)⟩).node (.page j) = apart.node (.page j) := by
      intro j hne
      rw [setNode_node, if_neg fun heq : SlabRef.page j = .page i => hne (page_inj heq)]
    have hpage : ∀ h j, j ∈ lists' h → j ≠ i := fun h j hj heq => hfresh h (heq ▸ hj)
    refine ⟨apart.setNode (.page i) ⟨(apart.node (.page i)).slab, none, none,
      typeOf pool.sizes (some slot)⟩, lists', ?_, ⟨hsame.sizes.trans hchanged.sizes,
        hsame.pages.trans hchanged.pages, hsame.extent.trans hchanged.extent⟩,
      hvalid.becomes hi (.inr ⟨shift, busy, hrole⟩) ⟨?_, ?_, ?_, ?_, ?_, ?_⟩ ?_ ?_ ?_ ?_ ?_ ?_⟩
    · exact congrArg (Option.bind · _) hcall
    · exact hsame.sizes.trans hchanged.sizes
    · exact hsame.pages.trans hchanged.pages
    · exact hsame.extent.trans hchanged.extent
    · exact fun j hj => (congrFun hsame.bitmap j).trans (hchanged.bitmap j hj)
    · exact fun j hj => by rw [hother j hj, hsame.slab, hchanged.slab j hj]
    · exact fun j hj => by rw [hother j hj, htypes, hchanged.type j hj]
    · refine hlists.congr rfl rfl (fun h => ?_) (fun h j hj => ?_) fun h j hj => ?_
      · rw [setNode_node, if_neg (headRef_ne_page h i)]
      · rw [hother j (hpage h j hj)]
      · rw [hother j (hpage h j hj)]
    · intro h j hne
      rw [hmems]
      exact ⟨And.left, fun hj => ⟨hj, hne⟩⟩
    · intro h
      rw [hhome]
      exact ⟨fun hi => absurd hi (hfresh h), fun hand => absurd hfull hand.2⟩
    · refine hbits.congr hsame.sizes ?_ ?_ (congrFun hsame.bitmap i)
      · rw [setNode_node, if_pos rfl, hsame.slab]
      · rw [setNode_node, if_pos rfl, hprev, hvalid.linked.type _ i hmem]
    · intro j hne hnone
      rw [hother j hne, hnodes j hnone, hnext]
    · intro _
      rw [setNode_node, if_pos rfl]
  · rw [if_neg hfull]
    refine ⟨next, lists, rfl, ⟨hchanged.sizes, hchanged.pages, hchanged.extent⟩,
      hvalid.becomes hi (.inr ⟨shift, busy, hrole⟩) hchanged hlinked (fun _ _ _ => Iff.rfl)
        (fun h => ?_) hbits (fun j _ _ => hnext j) fun hnone => ?_⟩
    · rw [hself, hhome]
      exact ⟨fun heq => ⟨heq, hfull⟩, And.left⟩
    · exact absurd hmem (hnone _)

/-- A chunk of the page is taken. -/
def Takes (pool : SlabPool) (roles : Nat → Role) (i shift : Nat) (busy : Nat → Bool)
    (result : Option (Option (SlabPool × Nat))) : Prop :=
  ∃ n pool' lists', result = some (some (pool', chunk pool.sizes i shift n)) ∧
    n < count pool.sizes shift ∧ busy n = false ∧ Kept pool pool' ∧
    Valid pool' lists' (Function.update roles i (.chunks shift (Function.update busy n true)))

private theorem shows_taken (next : SlabPool) (hshows : pool.Shows i (.chunks shift busy))
    (hsizes : next.sizes = pool.sizes)
    (htype : (next.node (.page i)).prev.2 = (pool.node (.page i)).prev.2)
    (hlabel : next.Labelled i shift) (hbits : ∀ m, m < count pool.sizes shift →
      next.taken i shift m = (pool.taken i shift m || decide (m = n))) :
    next.Shows i (.chunks shift (Function.update busy n true)) := by
  obtain ⟨hmin, hmax, htype', -, htaken, hreserved⟩ := hshows
  unfold Shows
  rw [hsizes]
  refine ⟨hmin, hmax, htype.trans htype', hlabel, fun m hm => ?_, fun m hm => ?_⟩
  · rw [hbits m hm, ← htaken m hm]
    by_cases heq : m = n
    · rw [heq, Function.update_self, decide_eq_true rfl, Bool.or_true]
    · rw [Function.update_of_ne heq, decide_eq_false heq, Bool.or_false]
  · by_cases heq : m = n
    · rw [heq, Function.update_self]
    · rw [Function.update_of_ne heq]
      exact hreserved m hm

theorem count_eq_map (hproper : pool.sizes.Proper) (hsmall : shift < pool.sizes.exactShift) :
    map pool.sizes shift * 64 = count pool.sizes shift := by
  have hexact := hproper.exactShift
  have hdvd : 2 ^ 6 ∣ 2 ^ (pool.sizes.pagesizeShift - shift) := Nat.pow_dvd_pow 2 (by omega)
  unfold map count
  rw [Nat.shiftLeft_eq, Nat.one_mul]
  exact Nat.div_mul_cancel hdvd

theorem takeSmall_takes (hvalid : Valid pool lists roles) (hmem : i ∈ lists (some slot))
    (hrole : roles i = .chunks shift busy) (hsmall : shift < pool.sizes.exactShift) :
    Takes pool roles i shift busy (takeSmall shift pool i) := by
  obtain ⟨hi, hhome⟩ := (hvalid.home _ i).mp hmem
  rw [hrole] at hhome
  obtain ⟨hslot, m₀, hm₀, hfree⟩ := hhome
  have hshows := hvalid.shows i hi
  rw [hrole] at hshows
  obtain ⟨-, -, -, hlabel, htaken, -⟩ := id hshows
  have hmap := count_eq_map hvalid.proper hsmall
  have hread : ∀ x, pool.taken i shift x = (pool.bitmap i (x / 64)).getLsbD (x % 64) :=
    fun x => if_pos hsmall
  -- a word with a free chunk, and the first free chunk of it
  obtain ⟨n, hword⟩ : ∃ n, firstWord (pool.bitmap i) (map pool.sizes shift) 0 = some n := by
    refine Option.ne_none_iff_exists'.mp fun hnone => ?_
    have hbusy := firstWord_none.mp hnone (m₀ / 64) (Nat.zero_le _) (by omega)
    rw [htaken m₀ hm₀, hread, eq_busy_iff.mp hbusy (m₀ % 64) (Nat.mod_lt _ (by omega))] at hfree
    cases hfree
  obtain ⟨-, hn, hnot, hbefore⟩ := firstWord_some hword
  obtain ⟨m, hbit⟩ : ∃ m, firstClear (pool.bitmap i n) 64 0 = some m := by
    refine Option.ne_none_iff_exists'.mp fun hnone => hnot (eq_busy_iff.mpr fun j hj => ?_)
    exact firstClear_none hnone (by omega) j (Nat.zero_le j) (by omega)
  obtain ⟨-, hm, hclear, -⟩ := firstClear_some hbit (by omega)
  have hchunk : n * (8 * 8) + m < count pool.sizes shift := by omega
  have hbusyChunk : busy (n * (8 * 8) + m) = false := by
    rw [htaken _ hchunk, hread, show (n * (8 * 8) + m) / 64 = n by omega,
      show (n * (8 * 8) + m) % 64 = m by omega, hclear]
  have hbits : ∀ x, (pool.setWord i n (pool.bitmap i n ||| bit m)).taken i shift x =
      (pool.taken i shift x || decide (x = n * (8 * 8) + m)) := by
    intro x
    rw [hread]
    unfold taken
    rw [if_pos (show shift < (pool.setWord i n _).sizes.exactShift from hsmall)]
    unfold setWord
    simp only [Function.update_self]
    by_cases hx : x / 64 = n
    · rw [hx, Function.update_self, getLsbD_set _ _ (Nat.mod_lt x (by omega))]
      congr 1
      exact decide_eq_decide.mpr ⟨fun heq => by omega, fun heq => by omega⟩
    · rw [Function.update_of_ne hx, decide_eq_false (by omega), Bool.or_false]
  have hshows' := shows_taken (pool.setWord i n (pool.bitmap i n ||| bit m)) hshows rfl rfl hlabel
    fun x _ => hbits x
  have hfull : ((pool.bitmap i n ||| bit m) = slabBusy ∧ firstWord (pool.bitmap i)
      (map pool.sizes shift - (n + 1)) (n + 1) = none) ↔ ∀ x, x < count pool.sizes shift →
        Function.update busy (n * (8 * 8) + m) true x = true := by
    have hnew : ∀ x, x < count pool.sizes shift →
        Function.update busy (n * (8 * 8) + m) true x =
          ((if x / 64 = n then pool.bitmap i n ||| bit m else pool.bitmap i (x / 64)).getLsbD
            (x % 64)) := by
      intro x hx
      rw [hshows'.2.2.2.2.1 x hx]
      unfold taken
      rw [if_pos (show shift < (pool.setWord i n _).sizes.exactShift from hsmall)]
      unfold setWord
      simp only [Function.update_self, Function.update_apply]
    rw [firstWord_none]
    constructor
    · rintro ⟨hword, hbehind⟩ x hx
      rw [hnew x hx]
      by_cases hself : x / 64 = n
      · rw [if_pos hself]
        exact eq_busy_iff.mp hword _ (Nat.mod_lt x (by omega))
      · rw [if_neg hself]
        refine eq_busy_iff.mp ?_ _ (Nat.mod_lt x (by omega))
        rcases Nat.lt_or_gt_of_ne hself with hlt | hgt
        · exact hbefore _ (Nat.zero_le _) hlt
        · exact hbehind _ hgt (by omega)
    · intro hall
      refine ⟨eq_busy_iff.mpr fun j hj => ?_, fun w hw hlt => eq_busy_iff.mpr fun j hj => ?_⟩
      · have hset := hall (n * 64 + j) (by omega)
        rwa [hnew _ (by omega), if_pos (by omega), show (n * 64 + j) % 64 = j by omega] at hset
      · have hset := hall (w * 64 + j) (by omega)
        rwa [hnew _ (by omega), if_neg (by omega), show (w * 64 + j) / 64 = w by omega,
          show (w * 64 + j) % 64 = j by omega] at hset
  obtain ⟨pool', lists', hcall, hkept, hvalid'⟩ := hvalid.settle
    (pool.setWord i n (pool.bitmap i n ||| bit m)) hmem hrole hslot ⟨rfl, rfl, rfl,
      fun j hj => Function.update_of_ne hj _ _, fun _ _ => rfl, fun _ _ => rfl⟩ hshows'
    (fun _ => rfl) (fun _ => rfl) (fun _ => rfl) hfull
  refine ⟨_, pool', lists', ?_, hchunk, hbusyChunk, hkept, hvalid'⟩
  have htype : typeOf pool.sizes (some slot) = .small := if_pos (hslot ▸ hsmall)
  rw [htype] at hcall
  unfold takeSmall
  simp only [hword, hbit]
  refine (congrArg (Option.bind · _) hcall).trans ?_
  rw [Option.bind_some, hkept.sizes]

theorem count_exact (hproper : pool.sizes.Proper) : count pool.sizes pool.sizes.exactShift = 64 := by
  have hleast := hproper.least
  unfold count
  rw [hproper.exactShift, show pool.sizes.pagesizeShift - (pool.sizes.pagesizeShift - 6) = 6 by omega]
  rfl

theorem setSlab_changed (pool : SlabPool) (i : Nat) (slab : BitVec 64) :
    Changed pool (pool.setSlab (.page i) slab) i := by
  refine ⟨rfl, rfl, rfl, fun _ _ => rfl, fun j hj => ?_, fun j _ => by rw [setSlab_prev]⟩
  rw [setSlab_slab, if_neg fun heq : SlabRef.page j = .page i => hj (page_inj heq)]

theorem Valid.settleSlab (hvalid : Valid pool lists roles) (slab : BitVec 64)
    (hmem : i ∈ lists (some slot)) (hrole : roles i = .chunks shift busy)
    (hslot : shift = slot + minShift)
    (hbits : (pool.setSlab (.page i) slab).Shows i (.chunks shift busy'))
    (hc : c ↔ ∀ m, m < count pool.sizes shift → busy' m = true) :
    ∃ pool' lists', (pool.setSlab (.page i) slab).onlyIf c
        (·.full i (typeOf pool.sizes (some slot))) = some pool' ∧ Kept pool pool' ∧
      Valid pool' lists' (Function.update roles i (.chunks shift busy')) := by
  refine hvalid.settle _ hmem hrole hslot (setSlab_changed pool i slab) hbits (fun h => ?_)
    (fun j => setSlab_next _ _ _ _) (fun j => setSlab_prev _ _ _ _) hc
  unfold setSlab
  rw [setNode_node, if_neg (headRef_ne_page h i)]

theorem takeExact_takes (hvalid : Valid pool lists roles) (hmem : i ∈ lists (some slot))
    (hrole : roles i = .chunks shift busy) (hexact : shift = pool.sizes.exactShift) :
    Takes pool roles i shift busy (takeExact shift pool i) := by
  obtain ⟨hi, hhome⟩ := (hvalid.home _ i).mp hmem
  rw [hrole] at hhome
  obtain ⟨hslot, m₀, hm₀, hfree⟩ := hhome
  have hshows := hvalid.shows i hi
  rw [hrole] at hshows
  have htaken := hshows.2.2.2.2.1
  have hcount : count pool.sizes shift = 64 := hexact ▸ count_exact hvalid.proper
  generalize hslab : (pool.node (.page i)).slab = slab
  have hread : ∀ x, pool.taken i shift x = slab.getLsbD x := by
    intro x
    rw [taken_exact hexact, hslab]
  have hnot : slab ≠ slabBusy := by
    intro hbusy
    rw [htaken m₀ hm₀, hread, eq_busy_iff.mp hbusy m₀ (by omega)] at hfree
    cases hfree
  obtain ⟨m, hbit⟩ : ∃ m, firstClear slab 64 0 = some m := by
    refine Option.ne_none_iff_exists'.mp fun hnone => hnot (eq_busy_iff.mpr fun j hj => ?_)
    exact firstClear_none hnone (by omega) j (Nat.zero_le j) (by omega)
  obtain ⟨-, hm, hclear, -⟩ := firstClear_some hbit (by omega)
  have hmarked : ∀ x, (pool.setSlab (.page i) (slab ||| bit m)).taken i shift x =
      (slab ||| bit m).getLsbD x := by
    intro x
    rw [taken_exact (show shift = (pool.setSlab _ _).sizes.exactShift from hexact), setSlab_slab,
      if_pos rfl]
  have hshows' := shows_taken (pool.setSlab (.page i) (slab ||| bit m)) hshows rfl
    (by rw [setSlab_prev])
    (labelled_exact (show shift = (pool.setSlab _ _).sizes.exactShift from hexact) i) fun x hx => by
      rw [hmarked, hread, getLsbD_set _ _ (by omega)]
  have hfull : slab ||| bit m = slabBusy ↔ ∀ x, x < count pool.sizes shift →
      Function.update busy m true x = true := by
    rw [eq_busy_iff, hcount]
    refine forall_congr' fun x => forall_congr' fun hx => ?_
    have hlt : x < count pool.sizes shift := hcount.symm ▸ hx
    rw [hshows'.2.2.2.2.1 x hlt, hmarked]
  obtain ⟨pool', lists', hcall, hkept, hvalid'⟩ :=
    hvalid.settleSlab (slab ||| bit m) hmem hrole hslot hshows' hfull
  refine ⟨m, pool', lists', ?_, by omega, ?_, hkept, hvalid'⟩
  · rw [typeOf_exact (hslot ▸ hexact)] at hcall
    unfold takeExact
    simp only [hslab, ne_eq, hnot, not_false_eq_true, ↓reduceIte, hbit]
    refine (congrArg (Option.bind · _) hcall).trans ?_
    rw [Option.bind_some, hkept.sizes]
  · rw [htaken m (by omega), hread, hclear]

theorem count_big (hproper : pool.sizes.Proper) (hbig : pool.sizes.exactShift < shift) :
    count pool.sizes shift ≤ 32 := by
  have hexact := hproper.exactShift
  have hpow : 2 ^ (pool.sizes.pagesizeShift - shift) ≤ 2 ^ 5 :=
    Nat.pow_le_pow_right (by omega) (by omega)
  exact hpow

theorem takeBig_takes (hvalid : Valid pool lists roles) (hmem : i ∈ lists (some slot))
    (hrole : roles i = .chunks shift busy) (hbig : pool.sizes.exactShift < shift) :
    Takes pool roles i shift busy (takeBig shift (count pool.sizes shift) pool i) := by
  obtain ⟨hi, hhome⟩ := (hvalid.home _ i).mp hmem
  rw [hrole] at hhome
  obtain ⟨hslot, m₀, hm₀, hfree⟩ := hhome
  have hshows := hvalid.shows i hi
  rw [hrole] at hshows
  obtain ⟨-, -, -, hlabel, htaken, -⟩ := id hshows
  obtain ⟨hlabel, hspare⟩ := (labelled_big hbig).mp hlabel
  have hcount := count_big hvalid.proper hbig
  generalize hslab : (pool.node (.page i)).slab = slab at hlabel hspare
  have hread : ∀ x, pool.taken i shift x = slab.getLsbD (slabMapShift + x) := by
    intro x
    rw [taken_big hbig, hslab]
  have hshift : slabMapShift = 32 := rfl
  have hnot : slab &&& slabMapMask ≠ mask (count pool.sizes shift) := by
    intro hbusy
    rw [htaken m₀ hm₀, hread, (map_eq_mask hcount hspare).mp hbusy m₀ hm₀] at hfree
    cases hfree
  obtain ⟨b, hbit⟩ : ∃ b, firstClear slab (count pool.sizes shift) slabMapShift = some b := by
    refine Option.ne_none_iff_exists'.mp fun hnone => hnot ((map_eq_mask hcount hspare).mpr ?_)
    exact fun n hn => firstClear_none hnone (by omega) _ (Nat.le_add_right _ n) (by omega)
  obtain ⟨hle, hlt, hclear, -⟩ := firstClear_some hbit (by omega)
  obtain ⟨m, rfl⟩ := Nat.exists_eq_add_of_le hle
  have hm : m < count pool.sizes shift := by omega
  have hmarked : ∀ x, (pool.setSlab (.page i) (slab ||| bit (slabMapShift + m))).taken i shift x =
      (slab ||| bit (slabMapShift + m)).getLsbD (slabMapShift + x) := by
    intro x
    rw [taken_big (show (pool.setSlab _ _).sizes.exactShift < shift from hbig), setSlab_slab,
      if_pos rfl]
  have hspare' : ∀ n, count pool.sizes shift ≤ n → n < 32 →
      (slab ||| bit (slabMapShift + m)).getLsbD (slabMapShift + n) = false := by
    intro n hn hlt
    rw [getLsbD_set _ _ (by omega), hspare n hn hlt, decide_eq_false (by omega), Bool.false_or]
  have hlabel' : (pool.setSlab (.page i) (slab ||| bit (slabMapShift + m))).Labelled i shift := by
    refine (labelled_big (show (pool.setSlab _ _).sizes.exactShift < shift from hbig)).mpr ?_
    rw [setSlab_slab, if_pos rfl]
    exact ⟨(set_and_shiftMask (by omega)).trans hlabel, hspare'⟩
  have hshows' := shows_taken (n := m) (pool.setSlab (.page i) (slab ||| bit (slabMapShift + m)))
    hshows rfl (by rw [setSlab_prev]) hlabel' fun x hx => by
      rw [hmarked, hread, getLsbD_set slab (slabMapShift + m) (show slabMapShift + x < 64 by omega)]
      congr 1
      exact decide_eq_decide.mpr ⟨fun heq => by omega, fun heq => by omega⟩
  have hfull : (slab ||| bit (slabMapShift + m)) &&& slabMapMask = mask (count pool.sizes shift) ↔
      ∀ x, x < count pool.sizes shift → Function.update busy m true x = true := by
    rw [map_eq_mask hcount hspare']
    refine forall_congr' fun x => forall_congr' fun hx => ?_
    rw [hshows'.2.2.2.2.1 x hx, hmarked]
  obtain ⟨pool', lists', hcall, hkept, hvalid'⟩ :=
    hvalid.settleSlab (slab ||| bit (slabMapShift + m)) hmem hrole hslot hshows' hfull
  refine ⟨m, pool', lists', ?_, hm, ?_, hkept, hvalid'⟩
  · rw [typeOf_big (hslot ▸ hbig)] at hcall
    unfold takeBig
    simp only [hslab, ne_eq, hnot, not_false_eq_true, ↓reduceIte, hbit]
    refine (congrArg (Option.bind · _) hcall).trans ?_
    rw [Option.bind_some, hkept.sizes, Nat.add_sub_cancel_left]
  · rw [htaken m hm, hread, hclear]

end Libsax.Memory.SlabPool
