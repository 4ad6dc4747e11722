import Libsax.Memory.SlabBlocks

/-! A block is given back. A page that was full comes first in the list of its slot then, and a
page without blocks is free again. -/
namespace Libsax.Memory.SlabPool

open Libsax.Lib

variable {pool next cleared pool' : SlabPool} {lists lists₁ : Option Nat → List Nat}
  {roles : Nat → Role} {i j m n p shift slot : Nat} {busy : Nat → Bool} {c : Prop} [Decidable c]

theorem Valid.attach (hvalid : Valid pool lists roles) (hi : i < pool.pages)
    (hrole : roles i = .chunks shift busy) (hslot : shift = slot + minShift)
    (hc : c ↔ ∀ m, m < count pool.sizes shift → busy m = true) :
    ∃ next lists₁, pool.onlyIf c (·.relink i slot (typeOf pool.sizes (some slot))) = some next ∧
      Lists next lists₁ ∧ Same pool next ∧
      (∀ h j, j ∈ lists₁ h ↔ j ∈ lists h ∨ j = i ∧ h = some slot) ∧
      (∀ j, (next.node (.page j)).prev.2 = (pool.node (.page j)).prev.2) ∧
      ∀ j, j ≠ i → (∀ h, j ∉ lists₁ h) → next.node (.page j) = pool.node (.page j) := by
  obtain ⟨hmin, hmax, -⟩ := hvalid.chunks hi hrole
  have hhead : IsHead pool.sizes (some slot) := by
    show slot < pool.sizes.pagesizeShift - minShift
    omega
  have hshows := hvalid.shows i hi
  rw [hrole] at hshows
  have htype : (pool.node (.page i)).prev.2 = typeOf pool.sizes (some slot) := by
    have htype := hshows.2.2.1
    rwa [hslot, Nat.add_sub_cancel] at htype
  unfold onlyIf
  by_cases hfull : c
  · have hfresh : ∀ h, i ∉ lists h := by
      intro h hmem
      have hhome := ((hvalid.home h i).mp hmem).2
      rw [hrole] at hhome
      cases h with
      | none => exact hhome
      | some other =>
        obtain ⟨-, m, hm, hfree⟩ := hhome
        rw [hc.mp hfull m hm] at hfree
        cases hfree
    obtain ⟨next, hcall, hpushed, hsame⟩ := hvalid.linked.relink hhead hfresh
    have hlists := hvalid.linked.push hpushed hhead hi hfresh
    have helsewhere := hpushed.elsewhere hvalid.linked hhead
    have hmems : ∀ h j, j ∈ Function.update lists (some slot) (i :: lists (some slot)) h ↔
        j ∈ lists h ∨ j = i ∧ h = some slot := by
      intro h j
      by_cases heq : h = some slot
      · rw [heq, Function.update_self, List.mem_cons]
        exact ⟨fun hor => hor.elim (fun hj => .inr ⟨hj, rfl⟩) .inl,
          fun hor => hor.elim .inr fun hand => .inl hand.1⟩
      · rw [Function.update_of_ne heq]
        exact ⟨.inl, fun hor => hor.elim id fun hand => absurd hand.2 heq⟩
    rw [if_pos hfull]
    refine ⟨next, _, hcall, hlists, hsame, hmems, fun j => ?_, fun j hne hnone => ?_⟩
    · by_cases hmem : j ∈ i :: lists (some slot)
      · have htype' := hlists.type (some slot) j (by rw [Function.update_self]; exact hmem)
        rw [htype', hsame.sizes]
        rcases List.mem_cons.mp hmem with rfl | hold
        · exact htype.symm
        · exact (hvalid.linked.type _ j hold).symm
      · rw [helsewhere.page j hmem]
    · refine helsewhere.page j fun hmem => hnone (some slot) ?_
      rw [Function.update_self]
      exact hmem
  · have hmem : i ∈ lists (some slot) := by
      refine (hvalid.home _ i).mpr ⟨hi, ?_⟩
      rw [hrole]
      refine ⟨hslot, ?_⟩
      by_contra hnone
      refine hfull (hc.mpr fun m hm => ?_)
      exact eq_true_of_ne_false fun hfree => hnone ⟨m, hm, hfree⟩
    rw [if_neg hfull]
    refine ⟨pool, lists, rfl, hvalid.linked, ⟨rfl, rfl, rfl, rfl, fun _ => rfl⟩, fun h j => ?_,
      fun _ => rfl, fun _ _ _ => rfl⟩
    refine ⟨.inl, fun hor => hor.elim id ?_⟩
    rintro ⟨rfl, rfl⟩
    exact hmem

theorem Valid.release (hvalid : Valid pool lists roles) (hi : i < pool.pages)
    (hrole : roles i = .chunks shift busy) (hslot : shift = slot + minShift)
    (hn : n < count pool.sizes shift) (hlists : Lists next lists₁) (hsame : Same pool next)
    (hmems : ∀ h j, j ∈ lists₁ h ↔ j ∈ lists h ∨ j = i ∧ h = some slot)
    (htypes : ∀ j, (next.node (.page j)).prev.2 = (pool.node (.page j)).prev.2)
    (hothers : ∀ j, j ≠ i → (∀ h, j ∉ lists₁ h) → next.node (.page j) = pool.node (.page j))
    (hchanged : Changed next cleared i)
    (hheads : ∀ h, cleared.node (headRef h) = next.node (headRef h))
    (hnext : ∀ j, (cleared.node (.page j)).next = (next.node (.page j)).next)
    (hprev : ∀ j, (cleared.node (.page j)).prev = (next.node (.page j)).prev)
    (hshows : cleared.Shows i (.chunks shift (Function.update busy n false))) :
    Valid cleared lists₁
      (Function.update roles i (.chunks shift (Function.update busy n false))) := by
  refine hvalid.becomes hi (.inr ⟨shift, busy, hrole⟩) ⟨?_, ?_, ?_, ?_, ?_, ?_⟩ ?_ ?_ ?_ hshows ?_ ?_
  · exact hchanged.sizes.trans hsame.sizes
  · exact hchanged.pages.trans hsame.pages
  · exact hchanged.extent.trans hsame.extent
  · exact fun j hj => (hchanged.bitmap j hj).trans (congrFun hsame.bitmap j)
  · exact fun j hj => (hchanged.slab j hj).trans (hsame.slab _)
  · exact fun j hj => (hchanged.type j hj).trans (htypes j)
  · exact hlists.congr hchanged.sizes hchanged.pages (fun h => congrArg SlabPage.next (hheads h))
      (fun _ j _ => hnext j) fun _ j _ => hprev j
  · intro h j hne
    rw [hmems]
    exact or_iff_left fun hand => hne hand.1
  · intro h
    rw [hmems, hvalid.home, hrole]
    constructor
    · rintro (⟨-, hhome⟩ | ⟨-, rfl⟩)
      · cases h with
        | none => exact hhome
        | some other => exact ⟨hhome.1, n, hn, Function.update_self _ _ _⟩
      · exact ⟨hslot, n, hn, Function.update_self _ _ _⟩
    · intro hhome
      cases h with
      | none => exact False.elim hhome
      | some other =>
        have hsameSlot : other = slot := Nat.add_right_cancel (hhome.1.symm.trans hslot)
        exact .inr ⟨rfl, congrArg some hsameSlot⟩
  · intro j hne hnone
    rw [hnext, hothers j hne hnone]
  · intro hnone
    exact absurd ((hmems (some slot) i).mpr (.inr ⟨rfl, rfl⟩)) (hnone _)

/-- What becomes of the blocks when the one at an address is given back, if there is one. -/
def Freed (pool : SlabPool) (roles : Nat → Role) (p : Nat) (result : Option SlabPool) : Prop :=
  ∃ pool' lists' roles', result = some pool' ∧ Kept pool pool' ∧ Valid pool' lists' roles' ∧
    (Gives pool.sizes pool.pages roles p roles' ∨
      roles' = roles ∧ blockOf pool.sizes pool.pages roles p = none)

theorem Valid.unchanged (hvalid : Valid pool lists roles)
    (hnone : blockOf pool.sizes pool.pages roles p = none) : Freed pool roles p (some pool) :=
  ⟨pool, lists, roles, rfl, ⟨rfl, rfl, rfl⟩, hvalid, .inr ⟨rfl, hnone⟩⟩

private theorem block_unaligned {sizes : SlabSizes} {pages : Nat} (hpage : p / sizes.pagesize = i)
    (hi : i < pages) (hrole : roles i = .chunks shift busy) (hodd : p % 2 ^ shift ≠ 0) :
    blockOf sizes pages roles p = none := by
  rw [blockOf_at hpage hi, hrole]
  exact if_neg fun hand => hodd hand.1

private theorem block_idle {sizes : SlabSizes} {pages : Nat} (hpage : p / sizes.pagesize = i)
    (hi : i < pages) (hrole : roles i = .chunks shift busy)
    (hfree : busy (p % sizes.pagesize / 2 ^ shift) = false) :
    blockOf sizes pages roles p = none := by
  rw [blockOf_at hpage hi, hrole]
  refine if_neg fun hand => ?_
  rw [hfree] at hand
  exact Bool.false_ne_true hand.2.2

theorem Valid.shift_eq (hvalid : Valid pool lists roles) (hi : i < pool.pages)
    (hrole : roles i = .chunks shift busy) (hexact : shift ≠ pool.sizes.exactShift) :
    ((pool.node (.page i)).slab &&& slabShiftMask).toNat = shift := by
  have hmost := hvalid.proper.most
  have hshows := hvalid.shows i hi
  rw [hrole] at hshows
  obtain ⟨-, hmax, -, hlabel, -⟩ := hshows
  have hnat : (BitVec.ofNat 64 shift).toNat = shift :=
    (BitVec.toNat_ofNat _ _).trans (Nat.mod_eq_of_lt (by omega))
  rcases Nat.lt_or_gt_of_ne hexact with hsmall | hbig
  · rw [(labelled_small hsmall).mp hlabel, small_and_shiftMask (by omega), hnat]
  · rw [((labelled_big hbig).mp hlabel).1, hnat]

theorem Valid.next_none (hvalid : Valid pool lists roles) (hi : i < pool.pages)
    (hrole : roles i = .chunks shift busy) : (pool.node (.page i)).next = none ↔
      ∀ m, m < count pool.sizes shift → busy m = true := by
  obtain ⟨hmin, -, -⟩ := hvalid.chunks hi hrole
  constructor
  · intro hnone m hm
    by_contra hfree
    have hmem : i ∈ lists (some (shift - minShift)) := by
      refine (hvalid.home _ i).mpr ⟨hi, ?_⟩
      rw [hrole]
      exact ⟨(Nat.sub_add_cancel hmin).symm, m, hm, Bool.eq_false_iff.mpr hfree⟩
    obtain ⟨left, right, hlist⟩ := List.append_of_mem hmem
    rw [hvalid.linked.next hlist] at hnone
    cases hnone
  · intro hfull
    refine hvalid.lone i hi fun h hhome => ?_
    rw [hrole] at hhome
    cases h with
    | none => exact hhome
    | some slot =>
      obtain ⟨-, m, hm, hfree⟩ := hhome
      rw [hfull m hm] at hfree
      cases hfree

private theorem shows_cleared (next : SlabPool) (hshows : pool.Shows i (.chunks shift busy))
    (hsizes : next.sizes = pool.sizes)
    (htype : (next.node (.page i)).prev.2 = (pool.node (.page i)).prev.2)
    (hlabel : next.Labelled i shift) (hreserved : reserved pool.sizes shift ≤ n)
    (hbits : ∀ m, m < count pool.sizes shift →
      next.taken i shift m = (pool.taken i shift m && decide (m ≠ n))) :
    next.Shows i (.chunks shift (Function.update busy n false)) := by
  obtain ⟨hmin, hmax, htype', -, htaken, hkept⟩ := hshows
  unfold Shows
  rw [hsizes]
  refine ⟨hmin, hmax, htype.trans htype', hlabel, fun m hm => ?_, fun m hm => ?_⟩
  · rw [hbits m hm, ← htaken m hm]
    by_cases heq : m = n
    · rw [heq, Function.update_self, decide_eq_false (not_not.mpr rfl), Bool.and_false]
    · rw [Function.update_of_ne heq, decide_eq_true heq, Bool.and_true]
  · rw [Function.update_of_ne (by omega)]
    exact hkept m hm

private theorem words_used (hproper : pool.sizes.Proper) (hmin : minShift ≤ shift)
    (hsmall : shift < pool.sizes.exactShift) (words : Nat → BitVec 64) :
    (words 0 &&& ~~~ (bit (header pool.sizes shift) - 1) ≠ 0 ∨
      (List.range (map pool.sizes shift - 1)).any (fun n => words (n + 1) ≠ 0) = true) ↔
    ∃ m, header pool.sizes shift ≤ m ∧ m < count pool.sizes shift ∧
      (words (m / 64)).getLsbD (m % 64) = true := by
  have hheader := header_le hproper hmin
  have hmap := count_eq_map hproper hsmall
  have hpos := count_pos pool.sizes shift
  rw [above_ne_zero (by omega), List.any_eq_true]
  constructor
  · rintro (⟨j, hle, hj, hset⟩ | ⟨w, hw, hset⟩)
    · refine ⟨j, hle, by omega, ?_⟩
      rwa [Nat.div_eq_of_lt hj, Nat.mod_eq_of_lt hj]
    · obtain ⟨j, hj, hset⟩ := ne_zero_iff.mp (of_decide_eq_true hset)
      rw [List.mem_range] at hw
      refine ⟨(w + 1) * 64 + j, by omega, by omega, ?_⟩
      rwa [show ((w + 1) * 64 + j) / 64 = w + 1 by omega,
        show ((w + 1) * 64 + j) % 64 = j by omega]
  · rintro ⟨m, hle, hm, hset⟩
    by_cases hfirst : m / 64 = 0
    · rw [hfirst] at hset
      exact .inl ⟨m % 64, by omega, by omega, hset⟩
    · refine .inr ⟨m / 64 - 1, List.mem_range.mpr (by omega), decide_eq_true ?_⟩
      rw [show m / 64 - 1 + 1 = m / 64 by omega]
      exact ne_zero_iff.mpr ⟨m % 64, Nat.mod_lt m (by omega), hset⟩

theorem Valid.finish (hcleared : Valid cleared lists₁
      (Function.update roles i (.chunks shift (Function.update busy n false))))
    (hkept : Kept pool cleared) (hmax : shift < pool.sizes.pagesizeShift)
    (hpage : p / pool.sizes.pagesize = i) (hi : i < pool.pages)
    (hrole : roles i = .chunks shift busy) (haligned : p % 2 ^ shift = 0)
    (hn : p % pool.sizes.pagesize / 2 ^ shift = n) (hreserved : reserved pool.sizes shift ≤ n)
    (hc : c ↔ ∃ m, m ≠ n ∧ reserved pool.sizes shift ≤ m ∧ m < count pool.sizes shift ∧
      busy m = true) :
    Freed pool roles p (if c then some cleared else cleared.freePages i 1) := by
  have hproper : pool.sizes.Proper := hkept.sizes ▸ hcleared.proper
  have hcount : n < count pool.sizes shift := hn ▸ number_lt hproper hmax p
  have hp : p = chunk pool.sizes i shift n := hn ▸ hpage ▸ eq_chunk hproper hmax haligned
  by_cases hmore : c
  · rw [if_pos hmore]
    refine ⟨cleared, lists₁, _, rfl, hkept, hcleared, .inl ?_⟩
    rw [hp]
    exact .next hi hrole hreserved hcount (hc.mp hmore)
  · obtain ⟨pool', lists', hcall, hkept', hvalid'⟩ :=
      hcleared.freePages (k := 1) (hkept.pages.symm ▸ hi)
        (.inr ⟨rfl, _, _, Function.update_self _ _ _⟩)
    rw [if_neg hmore]
    rw [Function.update_idem] at hvalid'
    refine ⟨pool', lists', _, hcall, ⟨hkept'.sizes.trans hkept.sizes,
      hkept'.pages.trans hkept.pages, hkept'.extent.trans hkept.extent⟩, hvalid', .inl ?_⟩
    rw [hp]
    refine .last hi hrole hreserved hcount fun m hle hlt hbusy => ?_
    by_contra hne
    exact hmore (hc.mpr ⟨m, hne, hle, hlt, hbusy⟩)

private theorem more_blocks (hsizes : cleared.sizes = pool.sizes)
    (hcleared : cleared.Shows i (.chunks shift (Function.update busy n false))) :
    (∃ m, m ≠ n ∧ reserved pool.sizes shift ≤ m ∧ m < count pool.sizes shift ∧ busy m = true) ↔
      ∃ m, reserved pool.sizes shift ≤ m ∧ m < count pool.sizes shift ∧
        cleared.taken i shift m = true := by
  have hread := hcleared.2.2.2.2.1
  rw [hsizes] at hread
  constructor
  · rintro ⟨m, hne, hle, hlt, hbusy⟩
    refine ⟨m, hle, hlt, ?_⟩
    rw [← hread m hlt, Function.update_of_ne hne, hbusy]
  · rintro ⟨m, hle, hlt, htaken⟩
    rw [← hread m hlt] at htaken
    have hne : m ≠ n := by
      rintro rfl
      rw [Function.update_self] at htaken
      cases htaken
    rw [Function.update_of_ne hne] at htaken
    exact ⟨m, hne, hle, hlt, htaken⟩

theorem Valid.in_pages (hvalid : Valid pool lists roles) (hpage : p / pool.sizes.pagesize = i)
    (hi : i < pool.pages) : ¬ p > pool.extent ∧ p >>> pool.sizes.pagesizeShift = i := by
  have hproper := hvalid.proper
  have hlt : p < pool.pages * pool.sizes.pagesize :=
    (Nat.div_lt_iff_lt_mul (pagesize_pos hproper)).mp (hpage ▸ hi)
  refine ⟨Nat.not_lt.mpr (Nat.le_of_lt (Nat.lt_of_lt_of_le hlt hvalid.fits)), ?_⟩
  rw [Nat.shiftRight_eq_div_pow, ← hproper.pagesize, hpage]

theorem Valid.free_small (hvalid : Valid pool lists roles) (hpage : p / pool.sizes.pagesize = i)
    (hi : i < pool.pages) (hrole : roles i = .chunks shift busy)
    (hsmall : shift < pool.sizes.exactShift)
    (hheader : p % 2 ^ shift = 0 →
      reserved pool.sizes shift ≤ p % pool.sizes.pagesize / 2 ^ shift) :
    Freed pool roles p (pool.free p) := by
  have hproper := hvalid.proper
  obtain ⟨hextent, hshift⟩ := hvalid.in_pages hpage hi
  obtain ⟨hmin, hmax, -⟩ := hvalid.chunks hi hrole
  obtain ⟨slot, hslot⟩ := Nat.exists_eq_add_of_le' hmin
  have hshows := hvalid.shows i hi
  rw [hrole] at hshows
  have htype : (pool.node (.page i)).prev.2 = .small := by
    have htype := hshows.2.2.1
    rwa [hslot, Nat.add_sub_cancel, typeOf_small (hslot ▸ hsmall)] at htype
  have hreserved : reserved pool.sizes shift = header pool.sizes shift := if_pos hsmall
  generalize hn : p % pool.sizes.pagesize / 2 ^ shift = n at hheader
  have hcount : n < count pool.sizes shift := hn ▸ number_lt hproper hmax p
  have htaken : busy n = (pool.bitmap i (n / 64)).getLsbD (n % 64) :=
    (hshows.2.2.2.2.1 n hcount).trans (taken_small hsmall i n)
  unfold SlabPool.free
  simp only [hextent, ↓reduceIte, hshift, deref_page hi, Option.bind_eq_bind, Option.bind_some,
    htype, hvalid.shift_eq hi hrole (Nat.ne_of_lt hsmall), inside, Nat.shiftLeft_eq,
    Nat.shiftRight_eq_div_pow, Nat.one_mul, hn, ne_eq]
  by_cases hodd : p % 2 ^ shift = 0
  · rw [if_neg (not_not.mpr hodd)]
    by_cases hbusy : busy n = true
    · have hset : ¬ pool.bitmap i (n / (8 * 8)) &&& bit (n % (8 * 8)) = 0 :=
        (and_bit_ne_zero (Nat.mod_lt n (by omega))).mpr (htaken ▸ hbusy)
      have hc : (pool.node (.page i)).next = none ↔
        ∀ m, m < count pool.sizes shift → busy m = true := hvalid.next_none hi hrole
      obtain ⟨next, lists₁, hattach, hlists, hsame, hmems, htypes, hothers⟩ :=
        hvalid.attach hi hrole hslot hc
      rw [if_pos hset]
      rw [hslot, Nat.add_sub_cancel, ← typeOf_small (hslot ▸ hsmall), hattach, ← hslot]
      simp only [Option.bind_some]
      generalize hcleared : next.setWord i (n / (8 * 8))
        (pool.bitmap i (n / (8 * 8)) &&& ~~~ bit (n % (8 * 8))) = cleared
      have hsizes : cleared.sizes = pool.sizes := hcleared ▸ hsame.sizes
      have hnode : cleared.node = next.node := hcleared ▸ rfl
      have hwords : ∀ w, cleared.bitmap i w = if w = n / 64 then
          pool.bitmap i w &&& ~~~ bit (n % 64) else pool.bitmap i w := by
        intro w
        rw [← hcleared]
        unfold setWord
        simp only [Function.update_self, Function.update_apply, hsame.bitmap]
        split_ifs with hw
        · rw [hw]
        · rfl
      have hbits : ∀ m, m < count pool.sizes shift →
          cleared.taken i shift m = (pool.taken i shift m && decide (m ≠ n)) := by
        intro m hm
        rw [taken_small (hsizes.symm ▸ hsmall), taken_small hsmall, hwords]
        split_ifs with hw
        · rw [getLsbD_clear _ _ (Nat.mod_lt m (by omega))]
          congr 1
          exact decide_eq_decide.mpr ⟨fun hne heq => hne (by rw [heq]), fun hne heq => hne (by omega)⟩
        · have hne : m ≠ n := fun heq => hw (by rw [heq])
          rw [decide_eq_true hne, Bool.and_true]
      have hshows' : cleared.Shows i (.chunks shift (Function.update busy n false)) := by
        refine shows_cleared cleared hshows hsizes ?_ ?_ (hheader hodd) hbits
        · rw [hnode, htypes]
        · refine (labelled_small (hsizes.symm ▸ hsmall)).mpr ?_
          rw [hnode, hsame.slab]
          exact (labelled_small hsmall).mp hshows.2.2.2.1
      have hvalid' := hvalid.release hi hrole hslot hcount hlists hsame hmems htypes hothers
        ⟨hcleared ▸ rfl, hcleared ▸ rfl, hcleared ▸ rfl,
          fun j hj => hcleared ▸ Function.update_of_ne hj _ _, fun j _ => by rw [hnode],
          fun j _ => by rw [hnode]⟩
        (fun h => by rw [hnode]) (fun j => by rw [hnode]) (fun j => by rw [hnode]) hshows'
      have hkept : Kept pool cleared :=
        ⟨hsizes, hcleared ▸ hsame.pages, hcleared ▸ hsame.extent⟩
      rw [← ite_or]
      refine hvalid'.finish hkept hmax hpage hi hrole hodd hn (hheader hodd) ?_
      rw [more_blocks hsizes hshows', hsizes, hreserved]
      refine (words_used hproper hmin hsmall _).trans (exists_congr fun m => ?_)
      rw [taken_small (hsizes.symm ▸ hsmall)]
    · have hclear : pool.bitmap i (n / 64) &&& bit (n % 64) = 0 := by
        by_contra hset
        exact hbusy (htaken ▸ (and_bit_ne_zero (Nat.mod_lt n (by omega))).mp hset)
      rw [if_neg (not_not.mpr hclear)]
      exact hvalid.unchanged (block_idle hpage hi hrole (hn ▸ Bool.eq_false_iff.mpr hbusy))
  · rw [if_pos hodd]
    exact hvalid.unchanged (block_unaligned hpage hi hrole hodd)

theorem Valid.releaseSlab (hvalid : Valid pool lists roles) (hi : i < pool.pages)
    (hrole : roles i = .chunks shift busy) (hslot : shift = slot + minShift)
    (hn : n < count pool.sizes shift) (slab : BitVec 64)
    (hc : c ↔ ∀ m, m < count pool.sizes shift → busy m = true)
    (hshows : (pool.setSlab (.page i) slab).Shows i
      (.chunks shift (Function.update busy n false))) :
    ∃ next lists₁, pool.onlyIf c (·.relink i slot (typeOf pool.sizes (some slot))) = some next ∧
      Kept pool (next.setSlab (.page i) slab) ∧
      Valid (next.setSlab (.page i) slab) lists₁
        (Function.update roles i (.chunks shift (Function.update busy n false))) := by
  obtain ⟨next, lists₁, hattach, hlists, hsame, hmems, htypes, hothers⟩ :=
    hvalid.attach hi hrole hslot hc
  refine ⟨next, lists₁, hattach, ⟨hsame.sizes, hsame.pages, hsame.extent⟩,
    hvalid.release hi hrole hslot hn hlists hsame hmems htypes hothers (setSlab_changed next i slab)
      (fun h => ?_) (fun j => setSlab_next _ _ _ _) (fun j => setSlab_prev _ _ _ _) ?_⟩
  · unfold setSlab
    rw [setNode_node, if_neg (headRef_ne_page h i)]
  · refine hshows.congr hsame.sizes ?_ ?_ (congrFun hsame.bitmap i)
    · rw [setSlab_slab, setSlab_slab, if_pos rfl, if_pos rfl]
    · rw [setSlab_prev, setSlab_prev, htypes]

theorem Valid.free_exact (hvalid : Valid pool lists roles) (hpage : p / pool.sizes.pagesize = i)
    (hi : i < pool.pages) (hrole : roles i = .chunks shift busy)
    (hexact : shift = pool.sizes.exactShift) : Freed pool roles p (pool.free p) := by
  have hproper := hvalid.proper
  obtain ⟨hextent, hshift⟩ := hvalid.in_pages hpage hi
  obtain ⟨hmin, hmax, -⟩ := hvalid.chunks hi hrole
  obtain ⟨slot, hslot⟩ := Nat.exists_eq_add_of_le' hmin
  have hshows := hvalid.shows i hi
  rw [hrole] at hshows
  have htype : (pool.node (.page i)).prev.2 = .exact := by
    have htype := hshows.2.2.1
    rwa [hslot, Nat.add_sub_cancel, typeOf_exact (hslot ▸ hexact)] at htype
  have hreserved : reserved pool.sizes shift = 0 := if_neg (by omega)
  have hall : count pool.sizes shift = 64 := hexact ▸ count_exact hproper
  generalize hn : p % pool.sizes.pagesize / 2 ^ shift = n
  have hcount : n < count pool.sizes shift := hn ▸ number_lt hproper hmax p
  generalize hslab : (pool.node (.page i)).slab = slab
  have hread : ∀ m, pool.taken i shift m = slab.getLsbD m := by
    intro m
    rw [taken_exact hexact, hslab]
  have htaken : busy n = slab.getLsbD n := (hshows.2.2.2.2.1 n hcount).trans (hread n)
  unfold SlabPool.free
  simp only [hextent, ↓reduceIte, hshift, deref_page hi, Option.bind_eq_bind, Option.bind_some,
    htype, inside, hproper.exactSize, ← hexact, hslab, Nat.shiftRight_eq_div_pow, hn, ne_eq]
  by_cases hodd : p % 2 ^ shift = 0
  · rw [if_neg (not_not.mpr hodd)]
    by_cases hbusy : busy n = true
    · have hset : ¬ slab &&& bit n = 0 := (and_bit_ne_zero (hall ▸ hcount)).mpr (htaken ▸ hbusy)
      have hc : slab = slabBusy ↔ ∀ m, m < count pool.sizes shift → busy m = true := by
        rw [eq_busy_iff, hall]
        refine forall_congr' fun m => forall_congr' fun hm => ?_
        rw [hshows.2.2.2.2.1 m (hall ▸ hm), hread]
      have hwritten : ∀ m, (pool.setSlab (.page i) (slab &&& ~~~ bit n)).taken i shift m =
          (slab &&& ~~~ bit n).getLsbD m := by
        intro m
        rw [taken_exact (show shift = (pool.setSlab _ _).sizes.exactShift from hexact), setSlab_slab,
          if_pos rfl]
      have hshows' := shows_cleared (n := n) (pool.setSlab (.page i) (slab &&& ~~~ bit n)) hshows rfl
        (by rw [setSlab_prev])
        (labelled_exact (show shift = (pool.setSlab _ _).sizes.exactShift from hexact) i)
        (hreserved ▸ Nat.zero_le n) fun m hm => by
          rw [hwritten, hread, getLsbD_clear _ _ (hall ▸ hm)]
      obtain ⟨next, lists₁, hattach, hkept, hvalid'⟩ :=
        hvalid.releaseSlab hi hrole hslot hcount _ hc hshows'
      rw [if_pos hset, hslot, Nat.add_sub_cancel, ← typeOf_exact (hslot ▸ hexact), hattach]
      simp only [Option.bind_some]
      refine hvalid'.finish hkept hmax hpage hi hrole hodd hn (hreserved ▸ Nat.zero_le n) ?_
      rw [more_blocks (show (pool.setSlab _ _).sizes = pool.sizes from rfl) hshows', ← ne_eq,
        ne_zero_iff, hreserved]
      refine exists_congr fun m => ?_
      rw [hwritten, hall]
      exact ⟨fun hand => ⟨Nat.zero_le m, hand⟩, And.right⟩
    · have hclear : slab &&& bit n = 0 := by
        by_contra hset
        exact hbusy (htaken ▸ (and_bit_ne_zero (hall ▸ hcount)).mp hset)
      rw [if_neg (not_not.mpr hclear)]
      exact hvalid.unchanged (block_idle hpage hi hrole (hn ▸ Bool.eq_false_iff.mpr hbusy))
  · rw [if_pos hodd]
    exact hvalid.unchanged (block_unaligned hpage hi hrole hodd)

theorem Valid.free_big (hvalid : Valid pool lists roles) (hpage : p / pool.sizes.pagesize = i)
    (hi : i < pool.pages) (hrole : roles i = .chunks shift busy)
    (hbig : pool.sizes.exactShift < shift) : Freed pool roles p (pool.free p) := by
  have hproper := hvalid.proper
  obtain ⟨hextent, hshift⟩ := hvalid.in_pages hpage hi
  obtain ⟨hmin, hmax, -⟩ := hvalid.chunks hi hrole
  obtain ⟨slot, hslot⟩ := Nat.exists_eq_add_of_le' hmin
  have hshows := hvalid.shows i hi
  rw [hrole] at hshows
  have htype : (pool.node (.page i)).prev.2 = .big := by
    have htype := hshows.2.2.1
    rwa [hslot, Nat.add_sub_cancel, typeOf_big (hslot ▸ hbig)] at htype
  have hreserved : reserved pool.sizes shift = 0 := if_neg (by omega)
  have hfew := count_big hproper hbig
  have hupper : slabMapShift = 32 := rfl
  have hstored := hvalid.shift_eq hi hrole (Nat.ne_of_gt hbig)
  obtain ⟨hlabel, hspare⟩ := (labelled_big hbig).mp hshows.2.2.2.1
  have hc := hvalid.next_none hi hrole
  generalize hn : p % pool.sizes.pagesize / 2 ^ shift = n
  have hcount : n < count pool.sizes shift := hn ▸ number_lt hproper hmax p
  generalize hslab : (pool.node (.page i)).slab = slab at hstored hlabel hspare
  have hread : ∀ m, pool.taken i shift m = slab.getLsbD (slabMapShift + m) := by
    intro m
    rw [taken_big hbig, hslab]
  have htaken : busy n = slab.getLsbD (slabMapShift + n) :=
    (hshows.2.2.2.2.1 n hcount).trans (hread n)
  unfold SlabPool.free
  simp only [hextent, ↓reduceIte, hshift, deref_page hi, Option.bind_eq_bind, Option.bind_some,
    htype, hslab, hstored, inside, Nat.shiftLeft_eq, Nat.shiftRight_eq_div_pow, Nat.one_mul, hn,
    ne_eq, Nat.add_comm n slabMapShift]
  by_cases hodd : p % 2 ^ shift = 0
  · rw [if_neg (not_not.mpr hodd)]
    by_cases hbusy : busy n = true
    · have hset : ¬ slab &&& bit (slabMapShift + n) = 0 :=
        (and_bit_ne_zero (by omega)).mpr (htaken ▸ hbusy)
      have hspare' : ∀ m, count pool.sizes shift ≤ m → m < 32 →
          (slab &&& ~~~ bit (slabMapShift + n)).getLsbD (slabMapShift + m) = false := by
        intro m hm hlt
        rw [getLsbD_clear _ _ (by omega), hspare m hm hlt, Bool.false_and]
      have hwritten : ∀ m, (pool.setSlab (.page i) (slab &&& ~~~ bit (slabMapShift + n))).taken i
          shift m = (slab &&& ~~~ bit (slabMapShift + n)).getLsbD (slabMapShift + m) := by
        intro m
        rw [taken_big (show (pool.setSlab _ _).sizes.exactShift < shift from hbig), setSlab_slab,
          if_pos rfl]
      have hlabel' : (pool.setSlab (.page i) (slab &&& ~~~ bit (slabMapShift + n))).Labelled i
          shift := by
        refine (labelled_big (show (pool.setSlab _ _).sizes.exactShift < shift from hbig)).mpr ?_
        rw [setSlab_slab, if_pos rfl]
        exact ⟨(clear_and_shiftMask (by omega)).trans hlabel, hspare'⟩
      have hshows' := shows_cleared (n := n)
        (pool.setSlab (.page i) (slab &&& ~~~ bit (slabMapShift + n))) hshows rfl
        (by rw [setSlab_prev]) hlabel' (hreserved ▸ Nat.zero_le n) fun m hm => by
          rw [hwritten, hread, getLsbD_clear slab (slabMapShift + n)
            (show slabMapShift + m < 64 by omega)]
          congr 1
          exact decide_eq_decide.mpr ⟨fun hne heq => hne (by omega), fun hne heq => hne (by omega)⟩
      obtain ⟨next, lists₁, hattach, hkept, hvalid'⟩ :=
        hvalid.releaseSlab hi hrole hslot hcount _ hc hshows'
      rw [if_pos hset, hslot, Nat.add_sub_cancel, ← typeOf_big (hslot ▸ hbig), hattach]
      simp only [Option.bind_some]
      refine hvalid'.finish hkept hmax hpage hi hrole hodd hn (hreserved ▸ Nat.zero_le n) ?_
      rw [more_blocks (show (pool.setSlab _ _).sizes = pool.sizes from rfl) hshows', ← ne_eq,
        map_ne_zero, hreserved]
      refine exists_congr fun m => ?_
      rw [hwritten]
      constructor
      · rintro ⟨hlt, hset'⟩
        refine ⟨Nat.zero_le m, Nat.lt_of_not_le fun hle => ?_, hset'⟩
        rw [hspare' m hle hlt] at hset'
        cases hset'
      · exact fun hand => ⟨by omega, hand.2.2⟩
    · have hclear : slab &&& bit (slabMapShift + n) = 0 := by
        by_contra hset
        exact hbusy (htaken ▸ (and_bit_ne_zero (by omega)).mp hset)
      rw [if_neg (not_not.mpr hclear)]
      exact hvalid.unchanged (block_idle hpage hi hrole (hn ▸ Bool.eq_false_iff.mpr hbusy))
  · rw [if_pos hodd]
    exact hvalid.unchanged (block_unaligned hpage hi hrole hodd)

theorem Valid.free_inner (hvalid : Valid pool lists roles) (hpage : p / pool.sizes.pagesize = i)
    (hi : i < pool.pages) (hrole : roles i = .inner) : Freed pool roles p (pool.free p) := by
  obtain ⟨hextent, hshift⟩ := hvalid.in_pages hpage hi
  obtain ⟨hslab, htype⟩ : pool.Shows i .inner := hrole ▸ hvalid.shows i hi
  have hnone : blockOf pool.sizes pool.pages roles p = none := by
    rw [blockOf_at hpage hi, hrole]
    rfl
  unfold SlabPool.free
  simp only [hextent, ↓reduceIte, hshift, deref_page hi, Option.bind_eq_bind, Option.bind_some,
    htype, hslab, ite_self]
  exact hvalid.unchanged hnone

theorem Valid.free_run (hvalid : Valid pool lists roles) (hpage : p / pool.sizes.pagesize = i)
    (hi : i < pool.pages) {len : Nat} (hrole : IsRun (roles i) len) :
    Freed pool roles p (pool.free p) := by
  have hproper := hvalid.proper
  obtain ⟨hextent, hshift⟩ := hvalid.in_pages hpage hi
  obtain ⟨hpos, hle, -⟩ := hvalid.tiled.tiles i len hi hrole
  have hfew := hvalid.few
  have hshows := hvalid.shows i hi
  obtain ⟨htype, hzero, hbusy, hlen⟩ : (pool.node (.page i)).prev.2 = .page ∧
      (pool.node (.page i)).slab ≠ 0 ∧ (pool.node (.page i)).slab ≠ slabPageBusy ∧
      ((pool.node (.page i)).slab &&& ~~~ slabPageStart).toNat = len := by
    rcases hrole with hfree | hrun
    · rw [hfree] at hshows
      rw [hshows.1]
      exact ⟨hshows.2, few_ne_zero (by omega) hpos, few_ne_busy (by omega), few_cleared (by omega)⟩
    · rw [hrun] at hshows
      rw [hshows.1]
      exact ⟨hshows.2, start_ne_zero len, start_ne_busy (by omega), start_cleared (by omega)⟩
  unfold SlabPool.free
  simp only [hextent, ↓reduceIte, hshift, deref_page hi, Option.bind_eq_bind, Option.bind_some,
    htype, hzero, hbusy, or_self, hlen, inside]
  by_cases hfirst : p % pool.sizes.pagesize = 0
  · rw [if_neg (not_not.mpr hfirst)]
    have hp : p = i * pool.sizes.pagesize := by
      rw [← hpage]
      exact (Nat.div_mul_cancel (Nat.dvd_of_mod_eq_zero hfirst)).symm
    obtain ⟨pool', lists', hcall, hkept, hvalid'⟩ := hvalid.freePages hi (.inl hrole)
    refine ⟨pool', lists', _, hcall, hkept, hvalid', ?_⟩
    rcases hrole with hfree | hrun
    · right
      refine ⟨?_, ?_⟩
      · rw [← hfree]
        exact Function.update_eq_self _ _
      · rw [blockOf_at hpage hi, hfree]
        rfl
    · left
      rw [hp]
      exact .run hi hrun
  · rw [if_pos hfirst]
    refine hvalid.unchanged ?_
    rw [blockOf_at hpage hi]
    rcases hrole with hfree | hrun
    · rw [hfree]
      rfl
    · rw [hrun]
      exact if_neg hfirst

/-- An address is that of a chunk which holds the bits of its page. -/
def inHeader (sizes : SlabSizes) (p : Nat) : Role → Bool
  | .chunks shift _ =>
    decide (p % 2 ^ shift = 0 ∧ p % sizes.pagesize / 2 ^ shift < reserved sizes shift)
  | _ => false

theorem Valid.free (hvalid : Valid pool lists roles) (hi : p / pool.sizes.pagesize < pool.pages)
    (hheader : inHeader pool.sizes p (roles (p / pool.sizes.pagesize)) = false) :
    Freed pool roles p (pool.free p) := by
  cases hrole : roles (p / pool.sizes.pagesize) with
  | free len => exact hvalid.free_run rfl hi (.inl hrole)
  | run len => exact hvalid.free_run rfl hi (.inr hrole)
  | inner => exact hvalid.free_inner rfl hi hrole
  | chunks shift busy =>
    rcases Nat.lt_trichotomy shift pool.sizes.exactShift with hsmall | hexact | hbig
    · refine hvalid.free_small rfl hi hrole hsmall fun haligned => Nat.le_of_not_lt fun hlt => ?_
      rw [hrole] at hheader
      exact of_decide_eq_false hheader ⟨haligned, hlt⟩
    · exact hvalid.free_exact rfl hi hrole hexact
    · exact hvalid.free_big rfl hi hrole hbig

end Libsax.Memory.SlabPool
