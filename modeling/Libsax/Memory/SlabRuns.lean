import Libsax.Memory.SlabFree
import Libsax.Memory.SlabInit

/-! Runs of a slab pool: any number of requests and of pointers that are given back, live or not. -/
namespace Libsax.Memory.SlabPool

open Libsax.Lib

variable {pool next pool' final : SlabPool} {lists : Option Nat → List Nat}
  {roles roles' : Nat → Role} {i j p q a b size shift : Nat} {busy : Nat → Bool}

def roleOf (pool : SlabPool) (i : Nat) : Role :=
  let slab := (pool.node (.page i)).slab
  let chunks := fun shift => Role.chunks shift (pool.taken i shift)
  match (pool.node (.page i)).prev.2 with
  | .page =>
    if slab = 0 ∨ slab = slabPageBusy then .inner
    else if slab &&& slabPageStart = 0 then .free slab.toNat
    else .run (slab &&& ~~~ slabPageStart).toNat
  | .exact => chunks pool.sizes.exactShift
  | .small => chunks (slab &&& slabShiftMask).toNat
  | .big => chunks (slab &&& slabShiftMask).toNat

/-- How many bytes begin at an address as a block that has been handed out. -/
def block (pool : SlabPool) (p : Nat) : Option Nat := blockOf pool.sizes pool.pages pool.roleOf p

theorem Valid.roleOf_cases (hvalid : Valid pool lists roles) (hi : i < pool.pages) :
    pool.roleOf i = roles i ∨ ∃ shift busy busy', roles i = .chunks shift busy ∧
      pool.roleOf i = .chunks shift busy' ∧
      ∀ n, n < count pool.sizes shift → busy' n = busy n := by
  have hshows := hvalid.shows i hi
  have hfew := hvalid.few
  cases hrole : roles i with
  | free len =>
    obtain ⟨hpos, hle, -⟩ := hvalid.tiled.tiles i len hi (.inl hrole)
    rw [hrole] at hshows
    have hstart : BitVec.ofNat 64 len &&& slabPageStart = 0 := by
      by_contra hset
      rw [slabPageStart_eq] at hset
      have hbit := (and_bit_ne_zero (by omega)).mp hset
      rw [getLsbD_few (by omega) (by omega)] at hbit
      cases hbit
    left
    unfold roleOf
    simp only [hshows.1, hshows.2, few_ne_zero (show len < 2 ^ 55 by omega) hpos,
      few_ne_busy (show len < 2 ^ 55 by omega), or_self, ↓reduceIte, hstart,
      toNat_few (show len < 2 ^ 55 by omega)]
  | run len =>
    obtain ⟨hpos, hle, -⟩ := hvalid.tiled.tiles i len hi (.inr hrole)
    rw [hrole] at hshows
    have hstart : (BitVec.ofNat 64 len ||| slabPageStart) &&& slabPageStart ≠ 0 := by
      rw [slabPageStart_eq]
      refine (and_bit_ne_zero (by omega)).mpr ?_
      rw [getLsbD_set _ _ (by omega), decide_eq_true rfl, Bool.or_true]
    left
    unfold roleOf
    simp only [hshows.1, hshows.2, start_ne_zero, start_ne_busy (show len < 2 ^ 55 by omega),
      or_self, ↓reduceIte, hstart, start_cleared (show len < 2 ^ 55 by omega)]
  | inner =>
    rw [hrole] at hshows
    left
    unfold roleOf
    simp only [hshows.1, hshows.2, ↓reduceIte]
  | chunks shift busy =>
    obtain ⟨hmin, hmax, -⟩ := hvalid.chunks hi hrole
    obtain ⟨slot, hslot⟩ := Nat.exists_eq_add_of_le' hmin
    rw [hrole] at hshows
    obtain ⟨-, -, htype, -, htaken, -⟩ := hshows
    rw [hslot, Nat.add_sub_cancel] at htype
    refine .inr ⟨shift, busy, pool.taken i shift, rfl, ?_, fun n hn => (htaken n hn).symm⟩
    rcases Nat.lt_trichotomy shift pool.sizes.exactShift with hsmall | hexact | hbig
    · rw [typeOf_small (hslot ▸ hsmall)] at htype
      unfold roleOf
      simp only [htype, hvalid.shift_eq hi hrole (Nat.ne_of_lt hsmall)]
    · rw [typeOf_exact (hslot ▸ hexact)] at htype
      unfold roleOf
      simp only [htype, hexact]
    · rw [typeOf_big (hslot ▸ hbig)] at htype
      unfold roleOf
      simp only [htype, hvalid.shift_eq hi hrole (Nat.ne_of_gt hbig)]

theorem Valid.roleOf_block (hvalid : Valid pool lists roles) (hi : i < pool.pages) (q : Nat) :
    (pool.roleOf i).block pool.sizes q = (roles i).block pool.sizes q := by
  rcases hvalid.roleOf_cases hi with heq | ⟨shift, busy, busy', hrole, hread, hbusy⟩
  · rw [heq]
  · obtain ⟨-, hmax, -⟩ := hvalid.chunks hi hrole
    rw [hrole, hread]
    unfold Role.block
    dsimp only
    rw [hbusy _ (number_lt hvalid.proper hmax q)]

theorem Valid.block_eq (hvalid : Valid pool lists roles) :
    pool.block = blockOf pool.sizes pool.pages roles := by
  funext q
  unfold block blockOf
  split
  · next hi => exact hvalid.roleOf_block hi q
  · rfl

theorem Valid.roleOf_header (hvalid : Valid pool lists roles) (hi : i < pool.pages) (p : Nat) :
    inHeader pool.sizes p (pool.roleOf i) = inHeader pool.sizes p (roles i) := by
  rcases hvalid.roleOf_cases hi with heq | ⟨shift, busy, busy', hrole, hread, -⟩
  · rw [heq]
  · rw [hrole, hread]
    rfl

theorem Valid.roleOf_free (hvalid : Valid pool lists roles) (hi : i < pool.pages) (len : Nat) :
    pool.roleOf i = .free len ↔ roles i = .free len := by
  rcases hvalid.roleOf_cases hi with heq | ⟨shift, busy, busy', hrole, hread, -⟩
  · rw [heq]
  · rw [hrole, hread]
    exact ⟨Role.noConfusion, Role.noConfusion⟩

theorem Valid.roleOf_inner (hvalid : Valid pool lists roles) (hi : i < pool.pages) :
    pool.roleOf i = .inner ↔ roles i = .inner := by
  rcases hvalid.roleOf_cases hi with heq | ⟨shift, busy, busy', hrole, hread, -⟩
  · rw [heq]
  · rw [hrole, hread]
    exact ⟨Role.noConfusion, Role.noConfusion⟩

theorem Valid.roleOf_inner_back {lists' : Option Nat → List Nat} (hvalid : Valid pool lists roles)
    (hnext : Valid next lists' roles') (hkept : Kept pool next)
    (hback : roles' i = .inner → roles i = .inner) (hi : i < pool.pages)
    (hinner : next.roleOf i = .inner) : pool.roleOf i = .inner := by
  rw [← hkept.pages] at hi
  have hrole := hback ((hnext.roleOf_inner hi).mp hinner)
  rw [hkept.pages] at hi
  exact (hvalid.roleOf_inner hi).mpr hrole

/-- Every page of chunks has a block. -/
def Used (sizes : SlabSizes) (pages : Nat) (roles : Nat → Role) : Prop :=
  ∀ i shift busy, i < pages → roles i = .chunks shift busy →
    ∃ n, reserved sizes shift ≤ n ∧ n < count sizes shift ∧ busy n = true

theorem Used.update {sizes : SlabSizes} {pages : Nat} (hused : Used sizes pages roles) (i : Nat)
    {role : Role} (hrole : ∀ shift busy, role = .chunks shift busy →
      ∃ n, reserved sizes shift ≤ n ∧ n < count sizes shift ∧ busy n = true) :
    Used sizes pages (Function.update roles i role) := by
  intro j shift busy hj hother
  by_cases heq : j = i
  · subst heq
    rw [Function.update_self] at hother
    exact hrole shift busy hother
  · rw [Function.update_of_ne heq] at hother
    exact hused j shift busy hj hother

theorem Used.cut {sizes : SlabSizes} {pages k len : Nat} (hused : Used sizes pages roles)
    (i : Nat) : Used sizes pages (cut roles i k len) := by
  intro j shift busy hj hrole
  unfold SlabPool.cut at hrole
  split_ifs at hrole
  exact hused j shift busy hj hrole

theorem Hands.used (hvalid : Valid pool lists roles) (hused : Used pool.sizes pool.pages roles)
    (hhands : Hands pool.sizes pool.pages roles a p roles') :
    Used pool.sizes pool.pages roles' := by
  cases hhands with
  | @next i shift n busy hi hrole hn hfree =>
    refine hused.update i fun shift' busy' heq => ?_
    cases heq
    refine ⟨n, Nat.le_of_not_lt fun hlt => ?_, hn, Function.update_self _ _ _⟩
    rw [(hvalid.chunks hi hrole).2.2 n hlt] at hfree
    cases hfree
  | @first i shift len hi hrole hmin hmax =>
    refine (hused.cut i).update i fun shift' busy' heq => ?_
    cases heq
    exact ⟨_, Nat.le_refl _, Nat.lt_of_succ_lt (reserved_lt hvalid.proper hmax),
      decide_eq_true (Nat.le_refl _)⟩
  | run => exact hused.cut _

theorem Gives.used {sizes : SlabSizes} {pages : Nat} (hused : Used sizes pages roles)
    (hgives : Gives sizes pages roles p roles') : Used sizes pages roles' := by
  cases hgives with
  | run => exact hused.update _ fun shift' busy' heq => nomatch heq
  | @next i shift n busy hi hrole hreserved hn hmore =>
    obtain ⟨m, hne, hle, hlt, hbusy⟩ := hmore
    refine hused.update i fun shift' busy' heq => ?_
    cases heq
    exact ⟨m, hle, hlt, (Function.update_of_ne hne _ _).trans hbusy⟩
  | last => exact hused.update _ fun shift' busy' heq => nomatch heq

def Inv (pool : SlabPool) : Prop :=
  ∃ lists roles, Valid pool lists roles ∧ Used pool.sizes pool.pages roles

inductive Call where
  | alloc (size : Nat)
  | free (p : Nat)
deriving DecidableEq, Repr

def step (pool : SlabPool) : Call → Option SlabPool
  | .alloc size => (pool.alloc size).map Prod.fst
  | .free p => pool.free p

/-- A pointer into the pages, but not to the bits of one. -/
def Returnable (pool : SlabPool) (p : Nat) : Prop :=
  p / pool.sizes.pagesize < pool.pages ∧
    inHeader pool.sizes p (pool.roleOf (p / pool.sizes.pagesize)) = false

instance (pool : SlabPool) (p : Nat) : Decidable (pool.Returnable p) :=
  inferInstanceAs (Decidable (_ ∧ _))

/-- A size that can be rounded up to pages, or such a pointer. -/
def allowed (pool : SlabPool) : Call → Prop
  | .alloc size => size + pool.sizes.pagesize ≤ 2 ^ 64
  | .free p => pool.Returnable p

instance (pool : SlabPool) : ∀ call, Decidable (pool.allowed call)
  | .alloc size => inferInstanceAs (Decidable (size + pool.sizes.pagesize ≤ 2 ^ 64))
  | .free p => inferInstanceAs (Decidable (pool.Returnable p))

theorem Hands.inner {sizes : SlabSizes} {pages : Nat} (hhands : Hands sizes pages roles a p roles')
    (hinner : roles' i = .inner) : roles i = .inner := by
  have hcut : ∀ {j k len}, cut roles j k len i = .inner → roles i = .inner := by
    intro j k len hinner
    unfold SlabPool.cut at hinner
    split_ifs at hinner
    exact hinner
  cases hhands with
  | @next j shift n busy hi hrole hn hfree =>
    by_cases heq : i = j
    · rw [heq, Function.update_self] at hinner
      cases hinner
    · rwa [Function.update_of_ne heq] at hinner
  | @first j shift len hi hrole hmin hmax =>
    unfold opened at hinner
    by_cases heq : i = j
    · rw [heq, Function.update_self] at hinner
      cases hinner
    · rw [Function.update_of_ne heq] at hinner
      exact hcut hinner
  | run => exact hcut hinner

theorem Gives.inner {sizes : SlabSizes} {pages : Nat} (hgives : Gives sizes pages roles p roles')
    (hinner : roles' i = .inner) : roles i = .inner := by
  have hupdate : ∀ {j role}, role ≠ .inner → Function.update roles j role i = .inner →
      roles i = .inner := by
    intro j role hrole hinner
    by_cases heq : i = j
    · rw [heq, Function.update_self] at hinner
      exact absurd hinner hrole
    · rwa [Function.update_of_ne heq] at hinner
  cases hgives with
  | run => exact hupdate Role.noConfusion hinner
  | next => exact hupdate Role.noConfusion hinner
  | last => exact hupdate Role.noConfusion hinner

theorem Valid.refused (hvalid : Valid pool lists roles) :
    Refused pool.sizes pool.pages pool.roleOf size ↔ Refused pool.sizes pool.pages roles size := by
  unfold Refused
  split
  · refine forall_congr' fun i => forall_congr' fun len => forall_congr' fun hi => ?_
    rw [hvalid.roleOf_free hi]
  · unfold Exhausted
    refine and_congr ?_ ?_
    · refine forall_congr' fun i => forall_congr' fun len => forall_congr' fun hi => ?_
      rw [Ne, hvalid.roleOf_free hi]
    · refine forall_congr' fun i => ?_
      constructor
      · intro hall busy hi hrole n hn
        rcases hvalid.roleOf_cases hi with heq | ⟨shift, busy', busy'', hrole', hread, hbusy⟩
        · exact hall busy hi (heq.trans hrole) n hn
        · rw [hrole] at hrole'
          cases hrole'
          rw [← hbusy n hn]
          exact hall busy'' hi hread n hn
      · intro hall busy hi hread n hn
        rcases hvalid.roleOf_cases hi with heq | ⟨shift, busy', busy'', hrole', hread', hbusy⟩
        · exact hall busy hi (heq.symm.trans hread) n hn
        · rw [hread] at hread'
          cases hread'
          rw [hbusy n hn]
          exact hall busy' hi hrole' n hn

private theorem pow_lt_pagesize (hproper : pool.sizes.Proper)
    (hmax : shift < pool.sizes.pagesizeShift)
    (k : Nat) (hk : 0 < k) : 2 ^ shift ≠ k * pool.sizes.pagesize := by
  have hlt : 2 ^ shift < 2 ^ pool.sizes.pagesizeShift := Nat.pow_lt_pow_right (by omega) hmax
  have hle := Nat.le_mul_of_pos_left pool.sizes.pagesize hk
  rw [← hproper.pagesize] at hlt
  omega

theorem Hands.not_refused (hvalid : Valid pool lists roles)
    (hhands : Hands pool.sizes pool.pages roles a p roles')
    (ha : a = granted pool.sizes size) : ¬ Refused pool.sizes pool.pages roles size := by
  have hproper := hvalid.proper
  intro hrefused
  unfold Refused at hrefused
  unfold granted at ha
  by_cases hlarge : size ≥ pool.sizes.maxSize
  · rw [if_pos hlarge] at hrefused ha
    have hpos := (pagesFor_spec hproper hlarge).1
    cases hhands with
    | next hi hrole hn hfree =>
      exact pow_lt_pagesize hproper (hvalid.chunks hi hrole).2.1 _ hpos ha
    | first hi hrole hmin hmax => exact pow_lt_pagesize hproper hmax _ hpos ha
    | run hi hrole hk hle =>
      have hsame := Nat.eq_of_mul_eq_mul_right (pagesize_pos hproper) ha
      have hlt := hrefused _ _ hi hrole
      omega
  · rw [if_neg hlarge] at hrefused ha
    cases hhands with
    | next hi hrole hn hfree =>
      have hsame := Nat.pow_right_injective (Nat.le_refl 2) ha
      subst hsame
      rw [hrefused.2 _ _ hi hrole _ hn] at hfree
      cases hfree
    | first hi hrole hmin hmax => exact hrefused.1 _ _ hi hrole
    | run hi hrole hk hle => exact hrefused.1 _ _ hi hrole

theorem Inv.alloc (hinv : Inv pool) (hsize : size + pool.sizes.pagesize ≤ 2 ^ 64) :
    (pool.alloc size = some (pool, none) ∧ Refused pool.sizes pool.pages pool.roleOf size) ∨
    ∃ p next, pool.alloc size = some (next, some p) ∧
      ¬ Refused pool.sizes pool.pages pool.roleOf size ∧ Kept pool next ∧ Inv next ∧
      pool.block p = none ∧
      next.block = Function.update pool.block p (some (granted pool.sizes size)) ∧
      ∀ i, i < pool.pages → next.roleOf i = .inner → pool.roleOf i = .inner := by
  obtain ⟨lists, roles, hvalid, hused⟩ := hinv
  rcases hvalid.alloc hsize with ⟨hcall, hrefused⟩ | ⟨p, next, lists', roles', hcall, hhands, hkept,
    hnext⟩
  · exact .inl ⟨hcall, hvalid.refused.mpr hrefused⟩
  · have hused' : Used next.sizes next.pages roles' := by
      rw [hkept.sizes, hkept.pages]
      exact hhands.used hvalid hused
    obtain ⟨hnone, hblock⟩ := hhands.block hvalid
    rw [← hvalid.block_eq] at hnone hblock
    refine .inr ⟨p, next, hcall, fun hrefused => hhands.not_refused hvalid rfl
      (hvalid.refused.mp hrefused), hkept, ⟨lists', roles', hnext, hused'⟩, hnone, ?_,
      fun i => hvalid.roleOf_inner_back hnext hkept hhands.inner⟩
    rw [← hblock, hnext.block_eq, hkept.sizes, hkept.pages]

theorem Inv.free (hinv : Inv pool) (hallowed : pool.Returnable p) :
    ∃ next, pool.free p = some next ∧ Kept pool next ∧ Inv next ∧
      next.block = Function.update pool.block p none ∧
      ∀ i, i < pool.pages → next.roleOf i = .inner → pool.roleOf i = .inner := by
  obtain ⟨lists, roles, hvalid, hused⟩ := hinv
  obtain ⟨hi, hheader⟩ := hallowed
  rw [hvalid.roleOf_header hi] at hheader
  obtain ⟨next, lists', roles', hcall, hkept, hnext, hcases⟩ := hvalid.free hi hheader
  obtain ⟨hused', hblock, hinner⟩ : Used pool.sizes pool.pages roles' ∧
      blockOf pool.sizes pool.pages roles' =
        Function.update (blockOf pool.sizes pool.pages roles) p none ∧
      ∀ i, roles' i = .inner → roles i = .inner := by
    rcases hcases with hgives | ⟨rfl, hnone⟩
    · exact ⟨hgives.used hused, hgives.block hvalid, fun i => hgives.inner⟩
    · refine ⟨hused, ?_, fun i => id⟩
      rw [← hnone]
      exact (Function.update_eq_self _ _).symm
  rw [← hkept.sizes, ← hkept.pages] at hused'
  refine ⟨next, hcall, hkept, ⟨lists', roles', hnext, hused'⟩, ?_,
    fun i => hvalid.roleOf_inner_back hnext hkept (hinner i)⟩
  rw [hvalid.block_eq, ← hblock, hnext.block_eq, hkept.sizes, hkept.pages]

theorem Inv.step (hinv : Inv pool) {call : Call} (hallowed : pool.allowed call) :
    ∃ next, pool.step call = some next ∧ Kept pool next ∧ Inv next ∧
      ∀ i, i < pool.pages → next.roleOf i = .inner → pool.roleOf i = .inner := by
  cases call with
  | alloc size =>
    rcases hinv.alloc hallowed with ⟨hcall, -⟩ | ⟨p, next, hcall, -, hkept, hnext, -, -, hinner⟩
    · exact ⟨pool, congrArg (Option.map Prod.fst) hcall, ⟨rfl, rfl, rfl⟩, hinv, fun i _ => id⟩
    · exact ⟨next, congrArg (Option.map Prod.fst) hcall, hkept, hnext, hinner⟩
  | free p =>
    obtain ⟨next, hcall, hkept, hnext, -, hinner⟩ := hinv.free hallowed
    exact ⟨next, hcall, hkept, hnext, hinner⟩

/-- What a user of a pool relies on. -/
structure Sound (pool : SlabPool) : Prop where
  inside : ∀ p a, pool.block p = some a → p + a ≤ pool.extent
  apart : ∀ p q a b, pool.block p = some a → pool.block q = some b → p < q → p + a ≤ q
  aligned : ∀ p a, pool.block p = some a → a ∣ p ∨ pool.sizes.pagesize ∣ p
  bits : ∀ i shift busy p a, i < pool.pages → pool.roleOf i = .chunks shift busy →
    shift < pool.sizes.exactShift → pool.block p = some a →
      p + a ≤ i * pool.sizes.pagesize ∨ i * pool.sizes.pagesize + map pool.sizes shift * 8 ≤ p
  alloc : ∀ size, size + pool.sizes.pagesize ≤ 2 ^ 64 →
    pool.alloc size = some (pool, none) ∨ ∃ p next, pool.alloc size = some (next, some p) ∧
      size ≤ granted pool.sizes size ∧ pool.block p = none ∧
      next.block = Function.update pool.block p (some (granted pool.sizes size))
  free : ∀ p, pool.Returnable p → ∃ next, pool.free p = some next ∧
    next.block = Function.update pool.block p none
  live : ∀ p a, pool.block p = some a → pool.Returnable p
  checked : ∀ p a, pool.block p = some a → pool.check p = true

theorem Inv.sound (hinv : Inv pool) : Sound pool := by
  obtain ⟨lists, roles, hvalid, -⟩ := id hinv
  have hblock := hvalid.block_eq
  refine ⟨fun p a hp => ?_, fun p q a b hp hq => ?_, fun p a hp => ?_,
    fun i shift busy p a hi hrole hsmall hp => ?_, fun size hsize => ?_, fun p hallowed => ?_,
    fun p a hp => ?_, fun p a hp => ?_⟩
  · rw [hblock] at hp
    exact Nat.le_trans (hvalid.block_inside hp) hvalid.fits
  · rw [hblock] at hp hq
    exact hvalid.block_apart hp hq
  · rw [hblock] at hp
    exact hvalid.block_aligned hp
  · rw [hblock] at hp
    rcases hvalid.roleOf_cases hi with heq | ⟨shift', busy', busy'', hrole', hread, -⟩
    · exact hvalid.block_clear hi (heq.symm.trans hrole) hsmall hp
    · rw [hread] at hrole
      cases hrole
      exact hvalid.block_clear hi hrole' hsmall hp
  · rcases hinv.alloc hsize with ⟨hcall, -⟩ | ⟨p, next, hcall, -, -, -, hnone, hnext, -⟩
    · exact .inl hcall
    · exact .inr ⟨p, next, hcall, le_granted hvalid.proper size, hnone, hnext⟩
  · obtain ⟨next, hcall, -, -, hnext, -⟩ := hinv.free hallowed
    exact ⟨next, hcall, hnext⟩
  · rw [hblock] at hp
    have hproper := hvalid.proper
    rcases hvalid.block_cases hp with ⟨i, len, hi, hrole, rfl, -⟩ |
      ⟨i, shift, busy, n, hi, hrole, hmax, hreserved, hn, -, rfl, -⟩
    · unfold Returnable
      rw [Nat.mul_div_cancel i (pagesize_pos hproper), hvalid.roleOf_header hi, hrole]
      exact ⟨hi, rfl⟩
    · unfold Returnable
      rw [chunk_page hproper hmax hn, hvalid.roleOf_header hi, hrole]
      refine ⟨hi, decide_eq_false fun hand => ?_⟩
      rw [chunk_number hproper hmax hn] at hand
      omega
  · rw [hblock] at hp
    have hpos := hvalid.block_pos hp
    have hinside := hvalid.block_inside hp
    have hfits := hvalid.fits
    exact decide_eq_true (by omega)

section Runs

variable {k addr total : Nat} {memory : SlabRef → SlabPage} {words : Nat → Nat → BitVec 64}
  {calls : List Call}

theorem init_inv (hleast : 9 ≤ k) (hmost : k ≤ 13)
    (hroom : poolSize + 3 * (2 ^ k + entrySize) ≤ total) (hend : addr + total < 2 ^ 64)
    (hinit : init (slabSetup (2 ^ k)) addr total memory words = some pool) : Inv pool := by
  have hproper := slabSetup_proper hleast hmost
  have hvalid := init_valid hproper hinit (layout_sound hproper hroom hend) hend
  refine ⟨_, _, hvalid, fun i shift busy hi hrole => ?_⟩
  split_ifs at hrole

theorem Inv.run (hinv : Inv pool) (hallowed : Along SlabPool.step allowed pool calls) :
    ∃ final, Lib.run SlabPool.step pool calls = some final ∧ Inv final ∧
      final.pages = pool.pages ∧
      ∀ i, i < pool.pages → final.roleOf i = .inner → pool.roleOf i = .inner := by
  have hstep : ∀ state call, allowed state call → (Inv state ∧ state.pages = pool.pages ∧
      ∀ i, i < pool.pages → state.roleOf i = .inner → pool.roleOf i = .inner) →
      ∃ next, state.step call = some next ∧ Inv next ∧ next.pages = pool.pages ∧
        ∀ i, i < pool.pages → next.roleOf i = .inner → pool.roleOf i = .inner := by
    rintro state call hcall ⟨hinv', hpages, hinner⟩
    obtain ⟨next, hnext, hkept, hinv'', hback⟩ := hinv'.step hcall
    exact ⟨next, hnext, hinv'', hkept.pages.trans hpages, fun i hi hrole =>
      hinner i hi (hback i (hpages.symm ▸ hi) hrole)⟩
  exact run_along hstep hallowed ⟨hinv, rfl, fun _ _ => id⟩

/-- No request and no pointer that is given back does harm. -/
theorem slab_sound (hleast : 9 ≤ k) (hmost : k ≤ 13)
    (hroom : poolSize + 3 * (2 ^ k + entrySize) ≤ total) (hend : addr + total < 2 ^ 64)
    (hinit : init (slabSetup (2 ^ k)) addr total memory words = some pool)
    (hallowed : Along step allowed pool calls) :
    ∃ final, run step pool calls = some final ∧ Sound final := by
  obtain ⟨final, hrun, hfinal, -⟩ := (init_inv hleast hmost hroom hend hinit).run hallowed
  exact ⟨final, hrun, hfinal.sound⟩

def fourPages : SlabPool :=
  (init (slabSetup (2 ^ 10)) 5000 6000 (fun _ => ⟨0, none, none, .page⟩) fun _ _ => 0).get rfl

/-- Chunks of three sizes and a page; a chunk is given back twice, and with it its page; two pages
in a row are refused. -/
theorem slab_sound_mixed : ∃ final, run step fourPages [.alloc 8, .alloc 16, .alloc 100, .alloc 600,
    .free 16, .free 16, .alloc 1025] = some final ∧ Sound final :=
  slab_sound (k := 10) (by omega) (by omega) (by decide) (by decide)
    (show init (slabSetup (2 ^ 10)) 5000 6000 (fun _ => ⟨0, none, none, .page⟩) (fun _ _ => 0) =
      some fourPages from rfl) (by decide +kernel)

theorem Inv.returned (hinv : Inv pool) (hnone : ∀ p, pool.block p = none) (hj : j < pool.pages) :
    ∃ i len, pool.roleOf i = .free len ∧ i ≤ j ∧ j < i + len := by
  obtain ⟨lists, roles, hvalid, hused⟩ := hinv
  have hproper := hvalid.proper
  rw [hvalid.block_eq] at hnone
  have hrun : ∀ i len, i < pool.pages → roles i ≠ .run len := by
    intro i len hi hrole
    have hblock := block_run hproper hi hrole
    rw [hnone] at hblock
    cases hblock
  cases hrole : roles j with
  | free len =>
    have hpos := (hvalid.tiled.tiles j len hj (.inl hrole)).1
    exact ⟨j, len, (hvalid.roleOf_free hj len).mpr hrole, Nat.le_refl j, by omega⟩
  | run len => exact absurd hrole (hrun j len hj)
  | inner =>
    obtain ⟨i, len, hfirst, hlt, hinside⟩ := hvalid.tiled.covered j hj hrole
    have hi : i < pool.pages := Nat.lt_trans hlt hj
    have hfree := hfirst.resolve_right (hrun i len hi)
    exact ⟨i, len, (hvalid.roleOf_free hi len).mpr hfree, Nat.le_of_lt hlt, hinside⟩
  | chunks shift busy =>
    obtain ⟨n, hreserved, hn, hbusy⟩ := hused j shift busy hj hrole
    have hblock := block_chunk hproper (hvalid.chunks hj hrole).2.1 hj hrole hreserved hn hbusy
    rw [hnone] at hblock
    cases hblock

/-- A request is refused only when there is nothing for it, and what has no block is free again. -/
theorem slab_refuses (hleast : 9 ≤ k) (hmost : k ≤ 13)
    (hroom : poolSize + 3 * (2 ^ k + entrySize) ≤ total) (hend : addr + total < 2 ^ 64)
    (hinit : init (slabSetup (2 ^ k)) addr total memory words = some pool)
    (hallowed : Along step allowed pool calls) (hrun : run step pool calls = some final) :
    (∀ size, size + final.sizes.pagesize ≤ 2 ^ 64 →
      ((∃ next, final.alloc size = some (next, none)) ↔
        Refused final.sizes final.pages final.roleOf size)) ∧
    ((∀ p, final.block p = none) → ∀ j, j < final.pages →
      ∃ i len, final.roleOf i = .free len ∧ i ≤ j ∧ j < i + len) := by
  obtain ⟨last, hlast, hinv, -⟩ := (init_inv hleast hmost hroom hend hinit).run hallowed
  obtain rfl := Option.some.inj (hrun.symm.trans hlast)
  refine ⟨fun size hsize => ?_, fun hnone j hj => hinv.returned hnone hj⟩
  rcases hinv.alloc hsize with ⟨hcall, hrefused⟩ | ⟨p, next, hcall, hnot, -⟩
  · exact ⟨fun _ => hrefused, fun _ => ⟨final, hcall⟩⟩
  · refine ⟨?_, fun hrefused => absurd hrefused hnot⟩
    rintro ⟨other, hother⟩
    rw [hcall] at hother
    cases hother

/-- Three blocks that fill the pages. -/
def fullPages : SlabPool :=
  (run step fourPages [.alloc 16, .alloc 512, .alloc 2000]).get (by decide +kernel)

theorem slab_refuses_full : Refused fullPages.sizes fullPages.pages fullPages.roleOf 100 := by
  have hrefused : (fullPages.alloc 100).map Prod.snd = some none := by decide +kernel
  obtain ⟨⟨next, answer⟩, hcall, rfl⟩ := Option.map_eq_some_iff.mp hrefused
  have hrun : run step fourPages [.alloc 16, .alloc 512, .alloc 2000] = some fullPages :=
    (Option.some_get _).symm
  exact ((slab_refuses (k := 10) (by omega) (by omega) (by decide) (by decide)
    (show init (slabSetup (2 ^ 10)) 5000 6000 (fun _ => ⟨0, none, none, .page⟩) (fun _ _ => 0) =
      some fourPages from rfl) (by decide +kernel) hrun).1 100 (by decide +kernel)).mp ⟨next, hcall⟩

theorem Inv.behind {k : Nat} (hinv : Inv pool) (hpos : 0 < k)
    (hp : pool.block p = some (k * pool.sizes.pagesize)) (hfirst : p / pool.sizes.pagesize < j)
    (hlast : j < p / pool.sizes.pagesize + k) : j < pool.pages ∧ pool.roleOf j = .inner := by
  obtain ⟨lists, roles, hvalid, -⟩ := hinv
  have hproper := hvalid.proper
  rw [hvalid.block_eq] at hp
  rcases hvalid.block_cases hp with ⟨i, len, hi, hrole, rfl, hlen⟩ |
    ⟨i, shift, busy, n, -, -, hmax, -, -, -, -, hlen⟩
  · rw [Nat.mul_div_cancel i (pagesize_pos hproper)] at hfirst hlast
    obtain rfl := Nat.eq_of_mul_eq_mul_right (pagesize_pos hproper) hlen
    obtain ⟨-, hle, hinner⟩ := hvalid.tiled.tiles i k hi (.inr hrole)
    have hj : j < pool.pages := by omega
    exact ⟨hj, (hvalid.roleOf_inner hj).mpr (hinner j hfirst hlast)⟩
  · exact absurd hlen.symm (pow_lt_pagesize hproper hmax k hpos)

/-- Runs are never joined: none of those that are handed out contains a page that once was the
first one of a run, or one of chunks. -/
theorem slab_never_joins {middle : SlabPool} {later : List Call} (hleast : 9 ≤ k) (hmost : k ≤ 13)
    (hroom : poolSize + 3 * (2 ^ k + entrySize) ≤ total) (hend : addr + total < 2 ^ 64)
    (hinit : init (slabSetup (2 ^ k)) addr total memory words = some pool)
    (hallowed : Along step allowed pool calls) (hrun : run step pool calls = some middle)
    (hlater : Along step allowed middle later) (hafter : run step middle later = some final)
    (hsize : size + final.sizes.pagesize ≤ 2 ^ 64) (hlarge : final.sizes.maxSize ≤ size)
    (halloc : final.alloc size = some (next, some p)) (hfirst : p / final.sizes.pagesize < j)
    (hlast : j < p / final.sizes.pagesize + pagesFor final.sizes size) :
    middle.roleOf j = .inner := by
  obtain ⟨last, hsame, hmiddle, -⟩ := (init_inv hleast hmost hroom hend hinit).run hallowed
  obtain rfl := Option.some.inj (hrun.symm.trans hsame)
  obtain ⟨last, hsame, hfinal, hpages, hback⟩ := hmiddle.run hlater
  obtain rfl := Option.some.inj (hafter.symm.trans hsame)
  rcases hfinal.alloc hsize with ⟨hcall, -⟩ | ⟨p', next', hcall, -, hkept, hnext, -, hblock, hinner⟩
  · rw [halloc] at hcall
    cases hcall
  · rw [halloc] at hcall
    cases hcall
    obtain ⟨lists, roles, hvalid, -⟩ := id hfinal
    have hpos := (pagesFor_spec hvalid.proper hlarge).1
    have hhere : next.block p = some (pagesFor final.sizes size * final.sizes.pagesize) := by
      rw [hblock, Function.update_self]
      exact congrArg some (if_pos hlarge)
    rw [← hkept.sizes] at hpos hhere hfirst hlast
    obtain ⟨hj, hrole⟩ := hnext.behind hpos hhere hfirst hlast
    rw [hkept.pages] at hj
    exact hback j (hpages ▸ hj) (hinner j hj hrole)

/-- Two pages that have been handed out together. -/
def twoTaken : SlabPool := (run step fourPages [.alloc 1025]).get (by decide +kernel)

/-- The same after they have been given back. -/
def twoFree : SlabPool := (run step twoTaken [.free 0]).get (by decide +kernel)

theorem slab_never_joins_again : twoTaken.roleOf 1 = .inner := by
  have hagain : (twoFree.alloc 1025).map Prod.snd = some (some 0) := by decide +kernel
  obtain ⟨⟨next, answer⟩, hcall, rfl⟩ := Option.map_eq_some_iff.mp hagain
  exact slab_never_joins (k := 10) (j := 1) (by omega) (by omega) (by decide) (by decide)
    (show init (slabSetup (2 ^ 10)) 5000 6000 (fun _ => ⟨0, none, none, .page⟩) (fun _ _ => 0) =
      some fourPages from rfl) (by decide +kernel)
    (show run step fourPages [.alloc 1025] = some twoTaken from (Option.some_get _).symm)
    (by decide +kernel) (show run step twoTaken [.free 0] = some twoFree from
      (Option.some_get _).symm) (by decide +kernel) (by decide +kernel) hcall (by decide +kernel)
    (by decide +kernel)

end Runs

end Libsax.Memory.SlabPool
