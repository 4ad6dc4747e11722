import Libsax.Memory.SlabChunks

/-! A chunk is one of a page that has one, or the first one of a new page; what is larger than half
a page is a run of pages. -/
namespace Libsax.Memory.SlabPool

open Libsax.Lib

variable {pool pool' : SlabPool} {lists lists' : Option Nat → List Nat} {roles roles' : Nat → Role}
  {h : Option Nat} {i j m n p size shift slot : Nat} {busy busy' : Nat → Bool}

theorem count_pos (sizes : SlabSizes) (shift : Nat) : 0 < count sizes shift := Nat.two_pow_pos _

private theorem count_eq_of_label (hproper : pool.sizes.Proper)
    (hmax : shift < pool.sizes.pagesizeShift)
    (hlabel : (pool.node (.page i)).slab &&& slabShiftMask = BitVec.ofNat 64 shift) :
    1 <<< (pool.sizes.pagesizeShift - ((pool.node (.page i)).slab &&& slabShiftMask).toNat) =
      count pool.sizes shift := by
  have hmost := hproper.most
  rw [hlabel, BitVec.toNat_ofNat, Nat.mod_eq_of_lt (by omega), Nat.shiftLeft_eq, Nat.one_mul]
  rfl

private theorem takeChunk_first {take : SlabPool → Nat → Option (Option (SlabPool × Nat))}
    {fuel : Nat}
    (htakes : Takes pool roles i shift busy (take pool i)) :
    ∃ n pool' lists', takeChunk take (fuel + 1) pool (.page i) =
        some (pool', some (chunk pool.sizes i shift n)) ∧ n < count pool.sizes shift ∧
      busy n = false ∧ Kept pool pool' ∧
      Valid pool' lists' (Function.update roles i (.chunks shift (Function.update busy n true))) := by
  obtain ⟨n, pool', lists', hcall, hn, hfree, hvalid'⟩ := htakes
  refine ⟨n, pool', lists', ?_, hn, hfree, hvalid'⟩
  unfold takeChunk
  rw [hcall]
  rfl

theorem Valid.findChunk (hvalid : Valid pool lists roles) (hmem : i ∈ lists (some slot))
    (hrole : roles i = .chunks shift busy) :
    ∃ n pool' lists', pool.findChunk shift (.page i) =
        some (pool', some (chunk pool.sizes i shift n)) ∧ n < count pool.sizes shift ∧
      busy n = false ∧ Kept pool pool' ∧
      Valid pool' lists' (Function.update roles i (.chunks shift (Function.update busy n true))) := by
  have hi := hvalid.linked.inside _ i hmem
  have hshows := hvalid.shows i hi
  rw [hrole] at hshows
  unfold SlabPool.findChunk
  rcases Nat.lt_trichotomy shift pool.sizes.exactShift with hsmall | hexact | hbig
  · rw [if_pos hsmall]
    exact takeChunk_first (takeSmall_takes hvalid hmem hrole hsmall)
  · rw [if_neg (Nat.not_lt.mpr (Nat.le_of_eq hexact.symm)), if_pos hexact]
    exact takeChunk_first (takeExact_takes hvalid hmem hrole hexact)
  · rw [if_neg (Nat.lt_asymm hbig), if_neg (Nat.ne_of_gt hbig)]
    have hlabel := ((labelled_big hbig).mp hshows.2.2.2.1).1
    simp only [count_eq_of_label hvalid.proper hshows.2.1 hlabel]
    exact takeChunk_first (takeBig_takes hvalid hmem hrole hbig)

private theorem clearWords_eq (pool : SlabPool) (i count : Nat) : pool.clearWords i count =
    { pool with bitmap := Function.update pool.bitmap i fun n =>
        if 0 < n ∧ n ≤ count then 0 else pool.bitmap i n } := by
  induction count with
  | zero =>
    have hsame : (fun n => if 0 < n ∧ n ≤ 0 then 0 else pool.bitmap i n) = pool.bitmap i := by
      funext n
      exact if_neg (by omega)
    rw [hsame, Function.update_eq_self]
    rfl
  | succ count ih =>
    unfold clearWords
    rw [ih]
    unfold setWord
    simp only [Function.update_self, Function.update_idem]
    congr 2
    funext n
    by_cases hn : n = count + 1
    · rw [hn, Function.update_self, if_pos (by omega)]
    · rw [Function.update_of_ne hn]
      by_cases hcleared : 0 < n ∧ n ≤ count
      · rw [if_pos hcleared, if_pos (by omega)]
      · rw [if_neg hcleared, if_neg (by omega)]

theorem reserved_lt (hproper : pool.sizes.Proper) (hmax : shift < pool.sizes.pagesizeShift) :
    reserved pool.sizes shift + 1 < count pool.sizes shift := by
  unfold reserved
  split
  · next hsmall =>
    have hmap := count_eq_map hproper hsmall
    have hpos := count_pos pool.sizes shift
    have hle : (1 <<< (pool.sizes.pagesizeShift - shift)) / 8 / (1 <<< shift) ≤
        count pool.sizes shift / 8 := by
      rw [Nat.shiftLeft_eq, Nat.one_mul]
      exact Nat.div_le_self _ _
    unfold header
    dsimp only
    split_ifs <;> omega
  · next hlarge =>
    have hpow : 2 ^ 1 ≤ 2 ^ (pool.sizes.pagesizeShift - shift) :=
      Nat.pow_le_pow_right (by omega) (by omega)
    exact hpow

theorem header_le (hproper : pool.sizes.Proper) (hmin : minShift ≤ shift) :
    header pool.sizes shift ≤ 16 := by
  have hmost := hproper.most
  have hpow : 2 ^ (pool.sizes.pagesizeShift - shift) ≤ 2 ^ 10 :=
    Nat.pow_le_pow_right (by omega) (by unfold minShift at hmin; omega)
  have hleast : 2 ^ 3 ≤ 2 ^ shift := Nat.pow_le_pow_right (by omega) hmin
  have hdiv : 2 ^ (pool.sizes.pagesizeShift - shift) / 8 / 2 ^ shift ≤ 2 ^ 10 / 8 / 2 ^ 3 :=
    Nat.div_le_div (Nat.div_le_div_right hpow) hleast (by omega)
  unfold header
  simp only [Nat.shiftLeft_eq, Nat.one_mul]
  split_ifs <;> omega

/-- A page that has just been taken gets a word, and comes first in the list of its slot. -/
def install (pool : SlabPool) (i slot : Nat) (slab : BitVec 64) : SlabPool :=
  (pool.setNode (.page i) ⟨slab, some (.slot slot), some (.slot slot),
    typeOf pool.sizes (some slot)⟩).setNext (.slot slot) (some (.page i))

private theorem install_page (pool : SlabPool) (i slot : Nat) (slab : BitVec 64) :
    (pool.install i slot slab).node (.page i) = ⟨slab, some (.slot slot), some (.slot slot),
      typeOf pool.sizes (some slot)⟩ := by
  unfold install setNext
  rw [setNode_node, if_neg (SlabRef.noConfusion : SlabRef.page i ≠ .slot slot), setNode_node,
    if_pos rfl]

private theorem install_other (pool : SlabPool) {ref : SlabRef} (slab : BitVec 64)
    (hpage : ref ≠ .page i)
    (hslot : ref ≠ .slot slot) : (pool.install i slot slab).node ref = pool.node ref := by
  unfold install setNext
  rw [setNode_node, if_neg hslot, setNode_node, if_neg hpage]

theorem Valid.install (hvalid : Valid pool lists roles) (words : Nat → BitVec 64) (slab : BitVec 64)
    (hempty : lists (some slot) = []) (hhead : IsHead pool.sizes (some slot)) (hi : i < pool.pages)
    (hrole : roles i = .run 1) (hslot : shift = slot + minShift)
    (hfree : ∃ n, n < count pool.sizes shift ∧ busy n = false)
    (hshows : ({ pool with bitmap := Function.update pool.bitmap i words }.install i slot
      slab).Shows i (.chunks shift busy)) :
    ∃ lists', Valid ({ pool with bitmap := Function.update pool.bitmap i words }.install i slot slab)
      lists' (Function.update roles i (.chunks shift busy)) := by
  generalize hpool' : { pool with bitmap := Function.update pool.bitmap i words }.install i slot slab =
    pool' at hshows ⊢
  have hpage : pool'.node (.page i) = ⟨slab, some (.slot slot), some (.slot slot),
      typeOf pool.sizes (some slot)⟩ := hpool' ▸ install_page _ i slot slab
  have hother : ∀ ref, ref ≠ .page i → ref ≠ .slot slot → pool'.node ref = pool.node ref :=
    fun ref hne hne' => hpool' ▸ install_other _ slab hne hne'
  have hfresh : ∀ h, i ∉ lists h := by
    intro h hmem
    have hhome := ((hvalid.home h i).mp hmem).2
    rw [hrole] at hhome
    exact run_not_home hhome
  have hfirst : (pool.node (headRef (some slot))).next = some (.slot slot) := by
    rw [hvalid.linked.first hhead, hempty]
    rfl
  have hpushed : Pushed pool pool' (some slot) i := by
    refine ⟨hpool' ▸ rfl, hpool' ▸ rfl, ?_, ?_, ?_, ?_, ?_⟩
    · rw [← hpool']
      unfold SlabPool.install
      rw [setNext_next]
      exact if_pos rfl
    · rw [hpage, hfirst]
    · rw [hpage]
      rfl
    · intro j hj
      rw [hfirst] at hj
      cases hj
    · exact fun ref hne hne' _ => hother ref hne hne'
  have hlists := hvalid.linked.push hpushed hhead hi hfresh
  have hnode : ∀ j, j ≠ i → pool'.node (.page j) = pool.node (.page j) := fun j hne =>
    hother _ (fun heq => hne (page_inj heq)) SlabRef.noConfusion
  refine ⟨_, hvalid.becomes hi (.inl hrole) ⟨hpushed.sizes, hpushed.pages, hpool' ▸ rfl, ?_, ?_, ?_⟩
    hlists ?_ ?_ hshows (fun j hne _ => by rw [hnode j hne]) fun hnone => ?_⟩
  · intro j hne
    rw [← hpool']
    exact Function.update_of_ne hne _ _
  · exact fun j hne => by rw [hnode j hne]
  · exact fun j hne => by rw [hnode j hne]
  · intro h j hne
    by_cases heq : h = some slot
    · rw [heq, Function.update_self, List.mem_cons]
      exact or_iff_right hne
    · rw [Function.update_of_ne heq]
  · intro h
    by_cases heq : h = some slot
    · rw [heq, Function.update_self]
      exact ⟨fun _ => ⟨hslot, hfree⟩, fun _ => List.mem_cons_self⟩
    · rw [Function.update_of_ne heq]
      refine ⟨fun hmem => absurd hmem (hfresh h), fun hhome => ?_⟩
      cases h with
      | none => exact False.elim hhome
      | some other =>
        have hsame : other = slot := Nat.add_right_cancel (hhome.1.symm.trans hslot)
        exact absurd (congrArg some hsame) heq
  · have hself := hnone (some slot)
    rw [Function.update_self] at hself
    exact absurd List.mem_cons_self hself

/-- What a page is for when its first chunk has been taken. -/
def fresh (sizes : SlabSizes) (shift : Nat) : Role :=
  .chunks shift fun n => decide (n ≤ reserved sizes shift)

/-- A free page becomes one of chunks. -/
def opened (sizes : SlabSizes) (roles : Nat → Role) (i len shift : Nat) : Nat → Role :=
  Function.update (cut roles i 1 len) i (fresh sizes shift)

section Fresh

variable (hproper : pool.sizes.Proper) (hslot : shift = slot + minShift)
  (hmax : shift < pool.sizes.pagesizeShift)
  (htype : (pool.node (.page i)).prev.2 = typeOf pool.sizes (some slot))

include hslot hmax htype

private theorem shows_fresh (hlabel : pool.Labelled i shift)
    (hbits : ∀ n, n < count pool.sizes shift →
    pool.taken i shift n = decide (n ≤ reserved pool.sizes shift)) :
    pool.Shows i (fresh pool.sizes shift) := by
  refine ⟨hslot ▸ Nat.le_add_left _ _, hmax, ?_, hlabel, fun n hn => (hbits n hn).symm,
    fun n hn => decide_eq_true (Nat.le_of_lt hn)⟩
  rw [htype, hslot, Nat.add_sub_cancel]

include hproper

private theorem shows_fresh_small (hsmall : shift < pool.sizes.exactShift)
    (hslab : (pool.node (.page i)).slab = BitVec.ofNat 64 shift)
    (hwords : ∀ n, n < map pool.sizes shift → pool.bitmap i n =
      if n = 0 then BitVec.ofNat 64 (2 <<< header pool.sizes shift - 1) else 0) :
    pool.Shows i (fresh pool.sizes shift) := by
  have hheader := header_le hproper (hslot ▸ Nat.le_add_left _ _)
  have hmap := count_eq_map hproper hsmall
  have hreserved : reserved pool.sizes shift = header pool.sizes shift := if_pos hsmall
  refine shows_fresh hslot hmax htype ((labelled_small hsmall).mpr hslab) fun n hn => ?_
  rw [taken_small hsmall, hreserved, hwords (n / 64) (by omega)]
  by_cases hfirst : n / 64 = 0
  · rw [if_pos hfirst, getLsbD_first (by omega), show n % 64 = n by omega]
  · rw [if_neg hfirst, decide_eq_false (by omega)]
    exact BitVec.getLsbD_zero

private theorem shows_fresh_exact (hexact : shift = pool.sizes.exactShift)
    (hslab : (pool.node (.page i)).slab = 1) : pool.Shows i (fresh pool.sizes shift) := by
  have hreserved : reserved pool.sizes shift = 0 := if_neg (by omega)
  have hcount : count pool.sizes shift = 64 := hexact ▸ count_exact hproper
  refine shows_fresh hslot hmax htype (labelled_exact hexact i) fun n hn => ?_
  rw [taken_exact hexact, hreserved, hslab]
  exact (getLsbD_bit 0 (hcount ▸ hn)).trans (decide_eq_decide.mpr Nat.le_zero.symm)

private theorem shows_fresh_big (hbig : pool.sizes.exactShift < shift)
    (hslab : (pool.node (.page i)).slab = bit slabMapShift ||| BitVec.ofNat 64 shift) :
    pool.Shows i (fresh pool.sizes shift) := by
  have hmost := hproper.most
  have hcount := count_big hproper hbig
  have hpos := count_pos pool.sizes shift
  have hreserved : reserved pool.sizes shift = 0 := if_neg (by omega)
  refine shows_fresh hslot hmax htype ((labelled_big hbig).mpr ⟨?_, fun n hn hlt => ?_⟩)
    fun n hn => ?_
  · rw [hslab, big_and_shiftMask (by omega)]
  · rw [hslab, getLsbD_big (by omega) hlt, decide_eq_false (by omega)]
  · rw [taken_big hbig, hslab, getLsbD_big (by omega) (by omega), hreserved]
    exact decide_eq_decide.mpr Nat.le_zero.symm

end Fresh

theorem Valid.openPage (hvalid : Valid pool lists roles) (hhead : IsHead pool.sizes (some slot))
    (hempty : lists (some slot) = []) (hslot : shift = slot + minShift) (hi : i < pool.pages)
    (hrole : roles i = .run 1) :
    ∃ pool' lists', pool.openPage i slot shift =
        some (pool', some (chunk pool.sizes i shift (reserved pool.sizes shift))) ∧
      Kept pool pool' ∧ Valid pool' lists' (Function.update roles i (fresh pool.sizes shift)) := by
  have hproper := hvalid.proper
  have hmax : shift < pool.sizes.pagesizeShift := by
    have hhead' : slot < pool.sizes.pagesizeShift - minShift := hhead
    omega
  have hderef : pool.deref (some (.slot slot)) = some (.slot slot) := if_pos hhead
  have hfree : ∃ n, n < count pool.sizes shift ∧
      decide (n ≤ reserved pool.sizes shift) = false :=
    ⟨_, reserved_lt hproper hmax, decide_eq_false (by omega)⟩
  have hinstall := fun words slab => hvalid.install words slab hempty hhead hi hrole hslot hfree
  have hsame : { pool with bitmap := Function.update pool.bitmap i (pool.bitmap i) } = pool := by
    rw [Function.update_eq_self]
  unfold SlabPool.openPage
  simp only [hderef, Option.bind_eq_bind, Option.bind_some]
  rcases Nat.lt_trichotomy shift pool.sizes.exactShift with hsmall | hexact | hbig
  · rw [if_pos hsmall, clearWords_eq, ← typeOf_small (hslot ▸ hsmall)]
    unfold setWord
    simp only [Function.update_self, Function.update_idem]
    generalize hwords : (fun n => if 0 < n ∧ n ≤ map pool.sizes shift - 1 then 0 else
      Function.update (pool.bitmap i) 0
        (BitVec.ofNat 64 (2 <<< header pool.sizes shift - 1)) n) = words
    obtain ⟨lists', hvalid'⟩ := hinstall words _ (shows_fresh_small hproper hslot hmax
      (congrArg (fun page => page.prev.2) (install_page _ i slot _)) hsmall
      (congrArg SlabPage.slab (install_page _ i slot _)) fun n hn => by
        have hword : Function.update pool.bitmap i words i n = words n :=
          congrFun (Function.update_self _ _ _) n
        have hn' : n < map pool.sizes shift := hn
        refine hword.trans ((congrFun hwords n).symm.trans ?_)
        by_cases hfirst : n = 0
        · rw [hfirst, if_neg (Nat.not_lt_zero 0 ∘ And.left), Function.update_self]
          exact (if_pos rfl).symm
        · exact (if_pos (by omega)).trans (if_neg hfirst).symm)
    have hreserved : reserved pool.sizes shift = header pool.sizes shift := if_pos hsmall
    rw [hreserved]
    exact ⟨_, lists', rfl, ⟨rfl, rfl, rfl⟩, hvalid'⟩
  · obtain ⟨lists', hvalid'⟩ := hinstall (pool.bitmap i) 1 (shows_fresh_exact hproper hslot hmax
      (congrArg (fun page => page.prev.2) (install_page _ i slot _)) hexact
      (congrArg SlabPage.slab (install_page _ i slot _)))
    have hreserved : reserved pool.sizes shift = 0 := if_neg (by omega)
    rw [hsame] at hvalid'
    rw [if_neg (by omega), if_pos hexact, ← typeOf_exact (hslot ▸ hexact), hreserved]
    exact ⟨_, lists', rfl, ⟨rfl, rfl, rfl⟩, hvalid'⟩
  · obtain ⟨lists', hvalid'⟩ := hinstall (pool.bitmap i) _ (shows_fresh_big hproper hslot hmax
      (congrArg (fun page => page.prev.2) (install_page _ i slot _)) hbig
      (congrArg SlabPage.slab (install_page _ i slot _)))
    have hreserved : reserved pool.sizes shift = 0 := if_neg (by omega)
    rw [hsame] at hvalid'
    rw [if_neg (by omega), if_neg (by omega), ← typeOf_big (hslot ▸ hbig), hreserved]
    exact ⟨_, lists', rfl, ⟨rfl, rfl, rfl⟩, hvalid'⟩

theorem Valid.newPage (hvalid : Valid pool lists roles) (hhead : IsHead pool.sizes (some slot))
    (hempty : lists (some slot) = []) (hslot : shift = slot + minShift) :
    (pool.newPage slot shift = some (pool, none) ∧
      ∀ i len, i < pool.pages → roles i ≠ .free len) ∨
    ∃ i len pool' lists', pool.newPage slot shift =
        some (pool', some (chunk pool.sizes i shift (reserved pool.sizes shift))) ∧
      i < pool.pages ∧ roles i = .free len ∧ Kept pool pool' ∧
      Valid pool' lists' (opened pool.sizes roles i len shift) := by
  unfold SlabPool.newPage
  rw [← bind_assoc]
  rcases hvalid.allocPages Nat.one_pos with ⟨hcall, hnone⟩ | ⟨i, len, next, lists₁, hcall, hi, hrole,
    -, hkept, hnext⟩
  · left
    rw [hcall]
    refine ⟨rfl, fun i len hi hrole => ?_⟩
    have hpos := (hvalid.tiled.tiles i len hi (.inl hrole)).1
    have hlt := hnone i len hi hrole
    omega
  · right
    have hempty' : lists₁ (some slot) = [] := by
      refine List.eq_nil_iff_forall_not_mem.mpr fun j hj => ?_
      obtain ⟨hjpages, hhome⟩ := (hnext.home _ j).mp hj
      have hold : Home pool.sizes (roles j) (some slot) := by
        rw [hkept.sizes] at hhome
        unfold cut at hhome
        split_ifs at hhome
        · exact False.elim hhome
        · exact False.elim hhome
        · exact hhome
      have hmem := (hvalid.home _ j).mpr ⟨hkept.pages ▸ hjpages, hold⟩
      rw [hempty] at hmem
      cases hmem
    obtain ⟨pool', lists', hopen, hkept', hvalid'⟩ := hnext.openPage (hkept.sizes.symm ▸ hhead)
      hempty' hslot (hkept.pages.symm ▸ hi) cut_self
    refine ⟨i, len, pool', lists', ?_, hi, hrole, ⟨hkept'.sizes.trans hkept.sizes,
      hkept'.pages.trans hkept.pages, hkept'.extent.trans hkept.extent⟩, ?_⟩
    · rw [hcall]
      simp only [Option.bind_eq_bind, Option.bind_some, hopen, hkept.sizes]
    · unfold opened
      rw [← hkept.sizes]
      exact hvalid'

/-- A chunk of a page, the first one of a new page, or pages; with how many bytes there are. -/
inductive Hands (sizes : SlabSizes) (pages : Nat) (roles : Nat → Role) :
    Nat → Nat → (Nat → Role) → Prop
  | next {i shift n : Nat} {busy : Nat → Bool} (hi : i < pages)
      (hrole : roles i = .chunks shift busy) (hn : n < count sizes shift)
      (hfree : busy n = false) :
      Hands sizes pages roles (2 ^ shift) (chunk sizes i shift n)
        (Function.update roles i (.chunks shift (Function.update busy n true)))
  | first {i shift len : Nat} (hi : i < pages) (hrole : roles i = .free len)
      (hmin : minShift ≤ shift) (hmax : shift < sizes.pagesizeShift) :
      Hands sizes pages roles (2 ^ shift) (chunk sizes i shift (reserved sizes shift))
        (opened sizes roles i len shift)
  | run {i k len : Nat} (hi : i < pages) (hrole : roles i = .free len) (hk : 0 < k)
      (hle : k ≤ len) :
      Hands sizes pages roles (k * sizes.pagesize) (i <<< sizes.pagesizeShift) (cut roles i k len)

/-- There is neither a free page nor a chunk of this size. -/
def Exhausted (sizes : SlabSizes) (pages : Nat) (roles : Nat → Role) (shift : Nat) : Prop :=
  (∀ i len, i < pages → roles i ≠ .free len) ∧ ∀ i busy, i < pages →
    roles i = .chunks shift busy → ∀ n, n < count sizes shift → busy n = true

theorem Valid.allocChunk (hvalid : Valid pool lists roles) (hmin : minShift ≤ shift)
    (hmax : shift < pool.sizes.pagesizeShift) :
    (pool.allocChunk shift = some (pool, none) ∧
      Exhausted pool.sizes pool.pages roles shift) ∨
    ∃ p pool' lists' roles', pool.allocChunk shift = some (pool', some p) ∧
      Hands pool.sizes pool.pages roles (2 ^ shift) p roles' ∧ Kept pool pool' ∧
      Valid pool' lists' roles' := by
  obtain ⟨slot, rfl⟩ := Nat.exists_eq_add_of_le' hmin
  have hhead : IsHead pool.sizes (some slot) := Nat.lt_sub_of_add_lt hmax
  have hderef : pool.deref (some (.slot slot)) = some (.slot slot) := if_pos hhead
  have hfirst := hvalid.linked.first hhead
  have hloop := hvalid.linked.loop _ hhead
  unfold SlabPool.allocChunk
  simp only [Nat.add_sub_cancel, hderef, Option.bind_eq_bind, Option.bind_some]
  rw [show (pool.node (.slot slot)).next = _ from hfirst]
  cases hlist : lists (some slot) with
  | nil =>
    have hself : (pool.node (.slot slot)).next = some (.slot slot) := by
      rw [hlist] at hfirst
      exact hfirst
    simp only [List.map_nil, List.headD_nil, headRef, hderef, Option.bind_some, hself, ne_eq,
      not_true_eq_false, ↓reduceIte]
    rcases hvalid.newPage hhead hlist rfl with ⟨hcall, hnone⟩ | ⟨i, len, pool', lists', hcall, hi,
      hrole, hkept, hvalid'⟩
    · refine .inl ⟨hcall, hnone, fun i busy hi hrole n hn => ?_⟩
      by_contra hfree
      have hmem := (hvalid.home (some slot) i).mpr ⟨hi, by
        rw [hrole]
        exact ⟨rfl, n, hn, Bool.eq_false_iff.mpr hfree⟩⟩
      rw [hlist] at hmem
      cases hmem
    · exact .inr ⟨_, pool', lists', _, hcall, .first hi hrole hmin hmax, hkept, hvalid'⟩
  | cons i rest =>
    have hmem : i ∈ lists (some slot) := hlist ▸ List.mem_cons_self
    obtain ⟨hi, hhome⟩ := (hvalid.home _ i).mp hmem
    obtain ⟨busy, hrole⟩ : ∃ busy, roles i = .chunks (slot + minShift) busy := by
      cases hrole : roles i with
      | chunks shift busy =>
        rw [hrole] at hhome
        exact ⟨busy, by rw [hhome.1]⟩
      | free len =>
        rw [hrole] at hhome
        exact False.elim hhome
      | run len =>
        rw [hrole] at hhome
        exact False.elim hhome
      | inner =>
        rw [hrole] at hhome
        exact False.elim hhome
    -- the page does not come behind itself
    have hother : (pool.node (.page i)).next ≠ some (.page i) := by
      rw [@Lists.next _ _ _ _ [] rest hvalid.linked hlist]
      intro heq
      rw [hlist] at hloop
      cases rest with
      | nil => cases heq
      | cons j rest =>
        obtain rfl := page_inj (Option.some.inj heq)
        exact (List.nodup_cons.mp (List.nodup_cons.mp hloop.nodup).2).1 List.mem_cons_self
    obtain ⟨n, pool', lists', hcall, hn, hfree, hkept, hvalid'⟩ := hvalid.findChunk hmem hrole
    refine .inr ⟨_, pool', lists', _, ?_, .next hi hrole hn hfree, hkept, hvalid'⟩
    simp only [List.map_cons, List.headD_cons, deref_page hi, Option.bind_some, ne_eq, hother,
      not_false_eq_true, ↓reduceIte, hcall]

def chunkShift (size : Nat) : Nat := if size > 8 then (size - 1).log2 + 1 else minShift

def pagesFor (sizes : SlabSizes) (size : Nat) : Nat :=
  (size + sizes.pagesize - 1) / sizes.pagesize

def granted (sizes : SlabSizes) (size : Nat) : Nat :=
  if size ≥ sizes.maxSize then pagesFor sizes size * sizes.pagesize else 2 ^ chunkShift size

private theorem le_chunkShift (size : Nat) : size ≤ 2 ^ chunkShift size := by
  unfold chunkShift
  split
  · have hlt := Nat.lt_log2_self (n := size - 1)
    omega
  · have hmin : 2 ^ minShift = 8 := rfl
    omega

private theorem minShift_le_chunkShift (size : Nat) : minShift ≤ chunkShift size := by
  unfold chunkShift
  split
  · have hlog := (Nat.le_log2 (show size - 1 ≠ 0 by omega)).mpr (show 2 ^ 3 ≤ size - 1 by omega)
    exact Nat.le_succ_of_le hlog
  · exact Nat.le_refl _

private theorem chunkShift_lt (hproper : pool.sizes.Proper) (hsmall : size < pool.sizes.maxSize) :
    chunkShift size < pool.sizes.pagesizeShift := by
  have hleast := hproper.least
  have hmax := hproper.maxSize
  unfold chunkShift
  split
  · have hlog := (Nat.log2_lt (show size - 1 ≠ 0 by omega)).mpr
      (show size - 1 < 2 ^ (pool.sizes.pagesizeShift - 1) by omega)
    omega
  · unfold minShift
    omega

theorem pagesFor_spec (hproper : pool.sizes.Proper) (hlarge : pool.sizes.maxSize ≤ size) :
    0 < pagesFor pool.sizes size ∧ size ≤ pagesFor pool.sizes size * pool.sizes.pagesize := by
  have hpage : 0 < pool.sizes.pagesize := hproper.pagesize ▸ Nat.two_pow_pos _
  have hmax : 0 < pool.sizes.maxSize := hproper.maxSize ▸ Nat.two_pow_pos _
  unfold pagesFor
  have hdiv := Nat.div_add_mod (size + pool.sizes.pagesize - 1) pool.sizes.pagesize
  have hmod := Nat.mod_lt (size + pool.sizes.pagesize - 1) hpage
  have hcomm := Nat.mul_comm ((size + pool.sizes.pagesize - 1) / pool.sizes.pagesize)
    pool.sizes.pagesize
  exact ⟨Nat.div_pos (by omega) hpage, by omega⟩

theorem le_granted (hproper : pool.sizes.Proper) (size : Nat) : size ≤ granted pool.sizes size := by
  unfold granted
  split
  · next hlarge => exact (pagesFor_spec hproper hlarge).2
  · exact le_chunkShift size

/-- No run of free pages is long enough, or there is no chunk. -/
def Refused (sizes : SlabSizes) (pages : Nat) (roles : Nat → Role) (size : Nat) : Prop :=
  if size ≥ sizes.maxSize then
    ∀ i len, i < pages → roles i = .free len → len < pagesFor sizes size
  else Exhausted sizes pages roles (chunkShift size)

private theorem alloc_small (hsmall : size < pool.sizes.maxSize) :
    pool.alloc size = pool.allocChunk (chunkShift size) := by
  unfold SlabPool.alloc chunkShift
  rw [if_neg (Nat.not_le.mpr hsmall)]
  exact (apply_ite pool.allocChunk _ _ _).symm

theorem Valid.alloc (hvalid : Valid pool lists roles) (hsize : size + pool.sizes.pagesize ≤ 2 ^ 64) :
    (pool.alloc size = some (pool, none) ∧ Refused pool.sizes pool.pages roles size) ∨
    ∃ p pool' lists' roles', pool.alloc size = some (pool', some p) ∧
      Hands pool.sizes pool.pages roles (granted pool.sizes size) p roles' ∧ Kept pool pool' ∧
      Valid pool' lists' roles' := by
  have hproper := hvalid.proper
  unfold Refused granted
  by_cases hlarge : size ≥ pool.sizes.maxSize
  · have hpos := (pagesFor_spec hproper hlarge).1
    have hpages : ((size + pool.sizes.pagesize - 1) % 2 ^ 64) >>> pool.sizes.pagesizeShift =
        pagesFor pool.sizes size := by
      have hpage : 0 < pool.sizes.pagesize := hproper.pagesize ▸ Nat.two_pow_pos _
      rw [Nat.mod_eq_of_lt (by omega), Nat.shiftRight_eq_div_pow, ← hproper.pagesize]
      rfl
    rw [if_pos hlarge, if_pos hlarge]
    unfold SlabPool.alloc
    rw [if_pos hlarge, hpages]
    dsimp only
    rw [← bind_assoc]
    rcases hvalid.allocPages hpos with ⟨hcall, hnone⟩ | ⟨i, len, pool', lists', hcall, hi, hrole,
      hle, hkept, hvalid'⟩
    · rw [hcall]
      exact .inl ⟨rfl, hnone⟩
    · rw [hcall]
      refine .inr ⟨i <<< pool.sizes.pagesizeShift, pool', lists', _, ?_, .run hi hrole hpos hle,
        hkept, hvalid'⟩
      rw [← hkept.sizes]
      rfl
  · rw [if_neg hlarge, if_neg hlarge, alloc_small (Nat.lt_of_not_le hlarge)]
    exact hvalid.allocChunk (minShift_le_chunkShift size)
      (chunkShift_lt hproper (Nat.lt_of_not_le hlarge))

end Libsax.Memory.SlabPool
