import Libsax.Memory.SlabPages

/-! `g_slab_init`: how the memory of a pool is divided. -/
namespace Libsax.Memory.SlabPool

open Libsax.Lib Libsax.Lib.Links

def poolSize : Nat := 64

def entrySize : Nat := 24

/-- `sys_align_ptr`, for a power of two -/
def alignPtr (p a : Nat) : Nat := (p + (a - 1)) / a * a

/-- Where the slots, the entries of the pages and the pages begin, where the memory ends, and how
many entries there are, of which the first so many are used. -/
structure Layout where
  slots : Nat
  table : Nat
  start : Nat
  stop : Nat
  entries : Nat
  pages : Nat
deriving DecidableEq, Repr

/-- `size` and the quotient in `m` are unsigned; `m` itself is not, and does not wrap. -/
def layout (sizes : SlabSizes) (addr total : Nat) : Layout :=
  let slots := addr + poolSize
  let table := slots + (sizes.pagesizeShift - minShift) * entrySize
  let stop := addr + total
  let size := (2 ^ 64 + total - poolSize) % 2 ^ 64
  let entries := size / (sizes.pagesize + entrySize)
  let start := alignPtr (table + entries * entrySize) sizes.pagesize
  let m : Int := (entries : Int) - ((2 ^ 64 + stop - start) % 2 ^ 64 / sizes.pagesize : Nat)
  let pages := if m > 0 then (entries - m).toNat else entries
  ⟨slots, table, start, stop, entries, pages⟩

/-- `g_slab_init`, in memory of any content. -/
def init (sizes : SlabSizes) (addr total : Nat) (memory : SlabRef → SlabPage)
    (words : Nat → Nat → BitVec 64) : Option SlabPool :=
  let layout := layout sizes addr total
  if sizes.maxSize = 0 then none
  else some {
    sizes := sizes
    pages := layout.pages
    extent := layout.stop - layout.start
    bitmap := words
    node := fun ref =>
      match ref with
      | .slot number =>
        if number < sizes.pagesizeShift - minShift then ⟨0, some (.slot number), none, .page⟩
        else memory ref
      | .page 0 => ⟨BitVec.ofNat 64 layout.pages, some .free, some .free, .page⟩
      | .page (number + 1) =>
        if number + 1 < layout.entries then ⟨0, none, none, .page⟩ else memory ref
      | .free => ⟨(memory .free).slab, some (.page 0), none, .page⟩ }

variable {sizes : SlabSizes} {addr total : Nat} {memory : SlabRef → SlabPage}
  {words : Nat → Nat → BitVec 64} {pool : SlabPool} {p a : Nat}

private theorem le_alignPtr (ha : 0 < a) : p ≤ alignPtr p a ∧ alignPtr p a < p + a := by
  have hdiv := Nat.div_add_mod (p + (a - 1)) a
  have hmod := Nat.mod_lt (p + (a - 1)) ha
  unfold alignPtr
  rw [Nat.mul_comm]
  omega

/-- Memory for three pages is divided into parts that lie behind each other. -/
structure Layout.Sound (layout : Layout) (sizes : SlabSizes) (addr total : Nat) : Prop where
  slots : layout.slots = addr + poolSize
  table : layout.table = layout.slots + (sizes.pagesizeShift - minShift) * entrySize
  start : layout.table + layout.entries * entrySize ≤ layout.start
  stop : layout.start + layout.pages * sizes.pagesize ≤ layout.stop
  total : layout.stop = addr + total
  aligned : sizes.pagesize ∣ layout.start
  pos : 0 < layout.pages
  most : layout.pages ≤ layout.entries
  least : layout.entries ≤ layout.pages + 2

private theorem layout_entries (hpool : poolSize ≤ total) (hend : total < 2 ^ 64) :
    (layout sizes addr total).entries =
      (total - poolSize) / (sizes.pagesize + entrySize) := by
  show (2 ^ 64 + total - poolSize) % 2 ^ 64 / _ = _
  rw [Nat.add_sub_assoc hpool, Nat.add_mod_left, Nat.mod_eq_of_lt (by omega)]

private theorem layout_pages (hend : addr + total < 2 ^ 64)
    (hbehind : (layout sizes addr total).start ≤ (layout sizes addr total).stop) :
    (layout sizes addr total).pages = min (layout sizes addr total).entries
      (((layout sizes addr total).stop - (layout sizes addr total).start) / sizes.pagesize) := by
  have hstop : (layout sizes addr total).stop = addr + total := rfl
  generalize hm : ((layout sizes addr total).entries : Int) -
    ((2 ^ 64 + (layout sizes addr total).stop - (layout sizes addr total).start) % 2 ^ 64 /
      sizes.pagesize : Nat) = m
  have hpages : (layout sizes addr total).pages =
      if m > 0 then ((layout sizes addr total).entries - m).toNat
      else (layout sizes addr total).entries := by
    rw [← hm]
    rfl
  rw [Nat.add_sub_assoc hbehind, Nat.add_mod_left, Nat.mod_eq_of_lt (by omega)] at hm
  generalize ((layout sizes addr total).stop - (layout sizes addr total).start) / sizes.pagesize =
    d at hm ⊢
  rw [hpages]
  by_cases hmore : m > 0
  · rw [if_pos hmore, Nat.min_eq_right (by omega)]
    omega
  · rw [if_neg hmore, Nat.min_eq_left (by omega)]

private theorem layout_bounds (hproper : sizes.Proper) (hpool : poolSize ≤ total)
    (hend : total < 2 ^ 64) :
    (layout sizes addr total).table + (layout sizes addr total).entries * entrySize ≤
      (layout sizes addr total).start ∧
    (layout sizes addr total).start < (layout sizes addr total).table +
      (layout sizes addr total).entries * entrySize + sizes.pagesize ∧
    (layout sizes addr total).entries * sizes.pagesize + (layout sizes addr total).table +
      (layout sizes addr total).entries * entrySize ≤ (layout sizes addr total).stop + 240 := by
  have hmost := hproper.most
  have hpage : 0 < sizes.pagesize := hproper.pagesize ▸ Nat.two_pow_pos _
  have hslots : (sizes.pagesizeShift - minShift) * entrySize ≤ 240 := by
    unfold minShift entrySize
    omega
  have hentries := @layout_entries sizes addr total hpool hend
  have htable : (layout sizes addr total).table =
      addr + poolSize + (sizes.pagesizeShift - minShift) * entrySize := rfl
  have hstop : (layout sizes addr total).stop = addr + total := rfl
  have hstart : (layout sizes addr total).start = alignPtr ((layout sizes addr total).table +
      (layout sizes addr total).entries * entrySize) sizes.pagesize := rfl
  generalize layout sizes addr total = layout at *
  have hfit : layout.entries * sizes.pagesize + layout.entries * entrySize ≤ total - poolSize := by
    rw [← Nat.mul_add, hentries]
    exact Nat.div_mul_le_self _ _
  obtain ⟨hle, hnear⟩ := @le_alignPtr (layout.table + layout.entries * entrySize) sizes.pagesize
    hpage
  rw [← hstart] at hle hnear
  exact ⟨hle, hnear, by omega⟩

private theorem pagesize_ge (hproper : sizes.Proper) : 512 ≤ sizes.pagesize := by
  rw [hproper.pagesize]
  exact Nat.pow_le_pow_right (show 0 < 2 by omega) hproper.least

private theorem layout_behind (hproper : sizes.Proper) (hpool : poolSize ≤ total)
    (hend : total < 2 ^ 64)
    (htwo : 2 ≤ (layout sizes addr total).entries) :
    (layout sizes addr total).start ≤ (layout sizes addr total).stop := by
  obtain ⟨-, hnear, hroom⟩ := @layout_bounds sizes addr total hproper hpool hend
  have hpage := pagesize_ge hproper
  have htwice := Nat.mul_le_mul_right sizes.pagesize htwo
  omega

private theorem layout_fits (hend : addr + total < 2 ^ 64)
    (hbehind : (layout sizes addr total).start ≤ (layout sizes addr total).stop) :
    (layout sizes addr total).start + (layout sizes addr total).pages * sizes.pagesize ≤
      (layout sizes addr total).stop := by
  have hmul := Nat.mul_le_mul_right sizes.pagesize (layout_pages hend hbehind ▸ Nat.min_le_right _ _ :
    (layout sizes addr total).pages ≤ ((layout sizes addr total).stop -
      (layout sizes addr total).start) / sizes.pagesize)
  have hdiv := Nat.div_mul_le_self ((layout sizes addr total).stop -
    (layout sizes addr total).start) sizes.pagesize
  omega

theorem layout_sound (hproper : sizes.Proper)
    (hroom : poolSize + 3 * (sizes.pagesize + entrySize) ≤ total)
    (hend : addr + total < 2 ^ 64) :
    (layout sizes addr total).Sound sizes addr total := by
  have hpage := pagesize_ge hproper
  have hthree : 3 ≤ (layout sizes addr total).entries := by
    rw [layout_entries (by omega) (by omega), Nat.le_div_iff_mul_le (by omega)]
    omega
  obtain ⟨hle, hnear, hfit⟩ := @layout_bounds sizes addr total hproper (by omega) (by omega)
  have hbehind := @layout_behind sizes addr total hproper (by omega) (by omega) (by omega)
  have hpages := layout_pages hend hbehind
  have hroomy : (layout sizes addr total).entries - 2 ≤ ((layout sizes addr total).stop -
      (layout sizes addr total).start) / sizes.pagesize := by
    have hthrice := Nat.mul_le_mul_right sizes.pagesize hthree
    rw [Nat.le_div_iff_mul_le (by omega), Nat.sub_mul]
    omega
  exact ⟨rfl, rfl, hle, layout_fits hend hbehind, rfl, Nat.dvd_mul_left _ _, by omega, by omega,
    by omega⟩

/-- The pages lie in the memory just when it does not end before them, which is so wherever it has
room for two of them. -/
theorem layout_inside (hproper : sizes.Proper) (hpool : poolSize ≤ total)
    (hend : addr + total < 2 ^ 64) :
    ((layout sizes addr total).start + (layout sizes addr total).pages * sizes.pagesize ≤
      (layout sizes addr total).stop ↔
        (layout sizes addr total).start ≤ (layout sizes addr total).stop) ∧
    (2 * (sizes.pagesize + entrySize) + poolSize ≤ total →
      (layout sizes addr total).start ≤ (layout sizes addr total).stop) ∧
    (3 * (sizes.pagesize + entrySize) + poolSize ≤ total →
      (layout sizes addr total).Sound sizes addr total) := by
  have hpage := pagesize_ge hproper
  refine ⟨⟨fun hinside => by omega, layout_fits hend⟩, fun htwo => ?_, fun hthree => ?_⟩
  · refine layout_behind hproper hpool (by omega) ?_
    rw [layout_entries hpool (by omega), Nat.le_div_iff_mul_le (by omega)]
    omega
  · exact layout_sound hproper (by omega) hend

theorem layout_inside_four :
    (layout (slabSetup (2 ^ 10)) 5000 6000).Sound (slabSetup (2 ^ 10)) 5000 6000 :=
  (layout_inside (slabSetup_proper (by omega) (by omega)) (by decide) (by decide)).2.2 (by decide)

/-- Memory for one page that ends before it begins. -/
example : layout (slabSetup (2 ^ 12)) 4000 4184 = ⟨4064, 4280, 8192, 8184, 1, 1⟩ := by decide

theorem init_valid (hproper : sizes.Proper)
    (hinit : init sizes addr total memory words = some pool)
    (hsound : (layout sizes addr total).Sound sizes addr total) (hend : addr + total < 2 ^ 64) :
    Valid pool (fun h => if h = none then [0] else [])
      (fun i => if i = 0 then .free pool.pages else .inner) := by
  obtain ⟨-, -, -, hstop, htotal, -, hpos, hmost, -⟩ := hsound
  have hmax : sizes.maxSize ≠ 0 := by
    rw [hproper.maxSize]
    exact Nat.ne_of_gt (Nat.two_pow_pos _)
  unfold init at hinit
  rw [if_neg hmax] at hinit
  generalize hlayout : layout sizes addr total = layout at *
  obtain rfl := Option.some.inj hinit
  have hlist : ∀ h : Option Nat, ∀ i ∈ (if h = none then [0] else []), h = none ∧ i = 0 := by
    intro h i hi
    split_ifs at hi with hnone
    · exact ⟨hnone, List.mem_singleton.mp hi⟩
    · cases hi
  refine ⟨hproper, ?_, ?_, ⟨?_, ?_, ?_, ?_, ?_⟩, ?_, ?_, ?_, ?_, ?_⟩
  · show layout.pages * sizes.pagesize ≤ layout.stop - layout.start
    omega
  · show layout.stop - layout.start < 2 ^ 64
    omega
  · intro h hhead
    cases h with
    | none =>
      refine ⟨⟨rfl, rfl, rfl⟩, List.nodup_cons.mpr ⟨?_, List.nodup_singleton _⟩⟩
      exact fun hmem => SlabRef.noConfusion (List.mem_singleton.mp hmem)
    | some slot =>
      refine ⟨?_, List.nodup_singleton _⟩
      have hhead' : slot < sizes.pagesizeShift - minShift := hhead
      show SlabPage.next (if _ then _ else _) = _
      rw [if_pos hhead']
      rfl
  · intro h i hi
    rw [(hlist h i hi).1]
    trivial
  · intro h h' i hi hi'
    rw [(hlist h i hi).1, (hlist h' i hi').1]
  · intro h i hi
    rw [(hlist h i hi).2]
    exact hpos
  · intro h i hi
    obtain ⟨rfl, rfl⟩ := hlist h i hi
    rfl
  · intro h i
    by_cases hfirst : i = 0
    · rw [if_pos hfirst, home_free]
      constructor
      · exact fun hi => ⟨hfirst ▸ hpos, (hlist h i hi).1⟩
      · rintro ⟨-, rfl⟩
        rw [if_pos rfl, hfirst]
        exact List.mem_cons_self
    · rw [if_neg hfirst]
      exact ⟨fun hi => absurd (hlist h i hi).2 hfirst, fun hand => absurd hand.2 inner_not_home⟩
  · intro i hi
    cases i with
    | zero => exact ⟨rfl, rfl⟩
    | succ i =>
      have hentry : i + 1 < layout.entries := Nat.lt_of_lt_of_le hi hmost
      rw [if_neg (Nat.succ_ne_zero i)]
      unfold Shows
      dsimp only
      rw [if_pos hentry]
      exact ⟨.inl rfl, rfl⟩
  · intro i hi hnone
    cases i with
    | zero => exact absurd trivial (hnone none)
    | succ i =>
      have hentry : i + 1 < layout.entries := Nat.lt_of_lt_of_le hi hmost
      dsimp only
      rw [if_pos hentry]
  · intro i len hi hrun
    by_cases hfirst : i = 0
    · subst hfirst
      rw [if_pos rfl] at hrun
      obtain heq | heq := hrun <;> cases heq
      exact ⟨hpos, by omega, fun j hj _ => if_neg (Nat.ne_of_gt hj)⟩
    · rw [if_neg hfirst] at hrun
      exact absurd rfl (Tiled.not_inner hrun)
  · intro j hj hrole
    by_cases hfirst : j = 0
    · rw [if_pos hfirst] at hrole
      cases hrole
    · exact ⟨0, layout.pages, .inl (if_pos rfl), Nat.pos_of_ne_zero hfirst, by
        rw [Nat.zero_add]
        exact hj⟩

end Libsax.Memory.SlabPool
