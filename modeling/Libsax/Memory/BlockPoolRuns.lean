import Mathlib.Data.List.Nodup
import Libsax.Memory.BlockPool

/-! Runs of the block pool: the free ring, the headers and the live blocks are
three pictures of one set, kept in step by every call. -/
namespace Libsax.Memory.BlockPool

open Libsax.Lib

/-- What the pool promises whoever calls it next. -/
structure Sound (system : System) : Prop where
  /-- a block is live at most once -/
  distinct : (system.live.map Allocation.block).Nodup
  /-- a block handed out is one of the pool's and was not live -/
  fresh : ∀ next block, alloc system.pool = (next, some block) →
    block ∈ system.pool.blocks ∧ block ∉ system.live.map Allocation.block
  full : (alloc system.pool).2 = none ↔
    ∀ block ∈ system.pool.blocks, block ∈ system.live.map Allocation.block
  used : (used system.pool).toInt = system.live.length
  dead : ∀ block ∈ system.pool.blocks, block ∉ system.live.map Allocation.block →
    free system.pool block = (system.pool, -1)
  freed : ∀ block ∈ system.live.map Allocation.block, (free system.pool block).2 = 0
  /-- a key leads to its block exactly while the allocation it names is live -/
  keys : ∀ key owner, (key, owner) ∈ system.issued → ∀ block,
    getblock system.pool key = some block ↔
      ∃ serial, owner = some serial ∧ ⟨block, serial⟩ ∈ system.live

/-- The shape that `g_fsb_init` gives a pool and no call changes. -/
structure Shaped (pool : Pool) : Prop where
  size : headerSize < pool.blockSize
  count : pool.blockCount < 2 ^ 31

private theorem idOf_blockOf {pool : Pool} (hshaped : Shaped pool) (id : Nat) :
    pool.idOf (pool.blockOf id) = id := by
  have hsize := hshaped.size
  unfold headerSize at hsize
  unfold Pool.idOf Pool.blockOf Pool.headerOf headerSize
  have hpos : 0 ≤ (id : Int) * pool.blockSize := Int.mul_nonneg (by omega) (by omega)
  rw [Int.tdiv_eq_ediv_of_nonneg (by omega), Int.add_comm,
    Int.add_mul_ediv_right _ _ (by omega), Int.ediv_eq_zero_of_lt (by omega) hsize]
  omega

private theorem blockOf_inj {pool : Pool} (hshaped : Shaped pool) {left right : Nat}
    (heq : pool.blockOf left = pool.blockOf right) : left = right := by
  have hids := congrArg pool.idOf heq
  rw [idOf_blockOf hshaped, idOf_blockOf hshaped] at hids
  exact Int.ofNat_inj.mp hids

private theorem headerOf_eq (pool : Pool) (id : Int) :
    pool.blockOf id - headerSize = pool.headerOf id := by
  unfold Pool.blockOf
  omega

private theorem headerOf_inj {pool : Pool} (hshaped : Shaped pool) {left right : Nat}
    (heq : pool.headerOf left = pool.headerOf right) : left = right := by
  refine blockOf_inj hshaped ?_
  unfold Pool.blockOf
  rw [heq]

@[simp] private theorem mem_blocks {pool : Pool} {block : Int} :
    block ∈ pool.blocks ↔ ∃ id < pool.blockCount, pool.blockOf id = block := by
  simp [Pool.blocks]

private theorem toInt_ofInt {pool : Pool} (hshaped : Shaped pool) {id : Nat}
    (hid : id < pool.blockCount) : (Int32.ofInt id).toInt = id := by
  have hcount := hshaped.count
  exact Int32.toInt_ofInt_of_le (by omega) (by omega)

/-- The magic that the allocation of this number gets. -/
def magicOf (serial : Nat) : UInt32 := UInt32.ofNat serial

private theorem magicOf_inj {left right : Nat} (hleft : left < 2 ^ 32) (hright : right < 2 ^ 32)
    (heq : magicOf left = magicOf right) : left = right := by
  have hnat := congrArg UInt32.toNat heq
  unfold magicOf at hnat
  rwa [UInt32.toNat_ofNat_of_lt' hleft, UInt32.toNat_ofNat_of_lt' hright] at hnat

private theorem magicOf_ne_zero {serial : Nat} (hpos : 0 < serial) (hserial : serial < 2 ^ 32) :
    magicOf serial ≠ 0 := by
  intro hzero
  have hsame : magicOf serial = magicOf 0 := hzero
  have heq := magicOf_inj hserial (by omega) hsame
  omega

private theorem followingMagic_magicOf {serial : Nat} (hserial : serial + 1 < 2 ^ 32) :
    followingMagic (magicOf serial) = magicOf (serial + 1) := by
  have hsucc : magicOf serial + 1 = magicOf (serial + 1) := by
    unfold magicOf
    rw [UInt32.ofNat_add]
    rfl
  unfold followingMagic
  rw [hsucc, if_neg (magicOf_ne_zero (Nat.succ_pos serial) hserial)]

structure Names (system : System) (key : Header) (serial : Nat) : Prop where
  magic : key.magic = magicOf serial
  bounds : 0 < serial ∧ serial ≤ system.serial
  block : ∃ id : Nat, id < system.pool.blockCount ∧ key.id = Int32.ofInt id ∧
    ∀ allocation ∈ system.live, allocation.serial = serial →
      allocation.block = system.pool.blockOf id

/-- `idle` lists the block numbers between the two ring indices. -/
structure Inv (system : System) (idle : List Nat) : Prop where
  shaped : Shaped system.pool
  ring : Window (system.pool.blockCount + 1) system.pool.ids system.pool.beginIndex
    system.pool.endIndex (idle.map Int.ofNat)
  perm : (idle.map (fun id : Nat => system.pool.blockOf id) ++
    system.live.map Allocation.block).Perm system.pool.blocks
  cleared : ∀ id ∈ idle, system.pool.header (system.pool.headerOf id) = ⟨0, 0⟩
  marked : ∀ allocation ∈ system.live, ∀ id : Nat, system.pool.blockOf id = allocation.block →
    system.pool.header (system.pool.headerOf id) =
      ⟨Int32.ofInt id, magicOf allocation.serial⟩
  magic : system.pool.nextMagic = magicOf system.serial
  serials : ∀ allocation ∈ system.live,
    0 < allocation.serial ∧ allocation.serial ≤ system.serial
  numbered : (system.live.map Allocation.serial).Nodup
  unowned : ∀ key, (key, none) ∈ system.issued → key.magic = 0
  owned : ∀ key serial, (key, some serial) ∈ system.issued → Names system key serial

private theorem blocks_nodup {pool : Pool} (hshaped : Shaped pool) : pool.blocks.Nodup := by
  unfold Pool.blocks
  exact (List.nodup_range).map fun left right heq => blockOf_inj hshaped heq

theorem Inv.nodup {system : System} {idle : List Nat} (hinv : Inv system idle) :
    (idle.map (fun id : Nat => system.pool.blockOf id) ++
      system.live.map Allocation.block).Nodup :=
  hinv.perm.nodup_iff.mpr (blocks_nodup hinv.shaped)

theorem Inv.idle_lt {system : System} {idle : List Nat} (hinv : Inv system idle) {id : Nat}
    (hid : id ∈ idle) : id < system.pool.blockCount := by
  have hmem : system.pool.blockOf id ∈ system.pool.blocks :=
    hinv.perm.mem_iff.mp (List.mem_append_left _ (List.mem_map.mpr ⟨id, hid, rfl⟩))
  obtain ⟨other, hother, heq⟩ := mem_blocks.mp hmem
  exact blockOf_inj hinv.shaped heq ▸ hother

theorem Inv.live_id {system : System} {idle : List Nat} (hinv : Inv system idle)
    {allocation : Allocation} (hlive : allocation ∈ system.live) :
    ∃ id < system.pool.blockCount, system.pool.blockOf id = allocation.block :=
  mem_blocks.mp (hinv.perm.mem_iff.mp
    (List.mem_append_right _ (List.mem_map.mpr ⟨allocation, hlive, rfl⟩)))

theorem Inv.idle_or_live {system : System} {idle : List Nat} (hinv : Inv system idle)
    {id : Nat} (hid : id < system.pool.blockCount) :
    id ∈ idle ∨ ∃ allocation ∈ system.live, allocation.block = system.pool.blockOf id := by
  have hmem := hinv.perm.mem_iff.mpr (mem_blocks.mpr ⟨id, hid, rfl⟩)
  rcases List.mem_append.mp hmem with hidle | hlive
  · obtain ⟨other, hother, heq⟩ := List.mem_map.mp hidle
    exact Or.inl (blockOf_inj hinv.shaped heq ▸ hother)
  · exact Or.inr (List.mem_map.mp hlive)

theorem Inv.idle_not_live {system : System} {idle : List Nat} (hinv : Inv system idle)
    {id : Nat} (hid : id ∈ idle) :
    system.pool.blockOf id ∉ system.live.map Allocation.block := by
  intro hlive
  exact (List.nodup_append.mp hinv.nodup).2.2 _ (List.mem_map.mpr ⟨id, hid, rfl⟩) _ hlive rfl

theorem Inv.counts {system : System} {idle : List Nat} (hinv : Inv system idle) :
    idle.length + system.live.length = system.pool.blockCount := by
  have hlength := hinv.perm.length_eq
  rw [List.length_append, List.length_map, List.length_map] at hlength
  rw [hlength]
  simp [Pool.blocks]

theorem Inv.room {system : System} {idle : List Nat} (hinv : Inv system idle) :
    (idle.map Int.ofNat).length < system.pool.blockCount + 1 := by
  have hcounts := hinv.counts
  rw [List.length_map]
  omega

theorem Inv.alloc_nil {system : System} (hinv : Inv system []) :
    alloc system.pool = (system.pool, none) := by
  have hequal := (hinv.ring.start_eq_stop hinv.room).mpr rfl
  unfold alloc
  rw [if_neg (not_not.mpr hequal)]

/-- The pool after the oldest free block was handed out. -/
def handOut (pool : Pool) (id serial : Nat) : Pool :=
  { pool with
    beginIndex := nextSlot (pool.blockCount + 1) pool.beginIndex
    nextMagic := magicOf (serial + 1)
    header := Function.update pool.header (pool.headerOf id)
      ⟨Int32.ofInt id, magicOf (serial + 1)⟩ }

theorem Inv.alloc_cons {system : System} {id : Nat} {rest : List Nat}
    (hinv : Inv system (id :: rest)) (hserial : system.serial + 1 < 2 ^ 32) :
    alloc system.pool =
      (handOut system.pool id system.serial, some (system.pool.blockOf id)) := by
  have hnot : system.pool.beginIndex ≠ system.pool.endIndex := fun hequal =>
    List.cons_ne_nil _ _ ((hinv.ring.start_eq_stop hinv.room).mp hequal)
  have hslot : system.pool.ids system.pool.beginIndex = (id : Int) := (Window.pop hinv.ring).1
  have hnonneg : (id : Int) ≥ 0 := Int.natCast_nonneg id
  unfold alloc
  rw [if_pos hnot, hslot, hinv.magic, followingMagic_magicOf hserial]
  simp only [if_pos hnonneg]
  rfl

theorem Inv.accepts_live {system : System} {idle : List Nat} (hinv : Inv system idle)
    (hserial : system.serial < 2 ^ 32) {allocation : Allocation}
    (hlive : allocation ∈ system.live) : system.pool.accepts allocation.block = true := by
  obtain ⟨id, hid, hblock⟩ := hinv.live_id hlive
  have hbounds := hinv.serials allocation hlive
  have hmagic := magicOf_ne_zero hbounds.1 (Nat.lt_of_le_of_lt hbounds.2 hserial)
  unfold Pool.accepts
  rw [← hblock, idOf_blockOf hinv.shaped, headerOf_eq, hinv.marked allocation hlive id hblock]
  simp only [toInt_ofInt hinv.shaped hid]
  simp [hid, hmagic]

theorem Inv.accepts_idle {system : System} {idle : List Nat} (hinv : Inv system idle)
    {id : Nat} (hid : id ∈ idle) : system.pool.accepts (system.pool.blockOf id) = false := by
  unfold Pool.accepts
  rw [headerOf_eq, hinv.cleared id hid]
  simp

theorem Inv.accepts_iff {system : System} {idle : List Nat} (hinv : Inv system idle)
    (hserial : system.serial < 2 ^ 32) {block : Int} (hblock : block ∈ system.pool.blocks) :
    system.pool.accepts block = true ↔ block ∈ system.live.map Allocation.block := by
  obtain ⟨id, hid, rfl⟩ := mem_blocks.mp hblock
  rcases hinv.idle_or_live hid with hidle | ⟨allocation, hlive, heq⟩
  · simp only [hinv.accepts_idle hidle, hinv.idle_not_live hidle, Bool.false_eq_true]
  · rw [← heq]
    exact ⟨fun _ => List.mem_map.mpr ⟨allocation, hlive, rfl⟩,
      fun _ => hinv.accepts_live hserial hlive⟩

theorem Inv.handOut {system : System} {id : Nat} {rest : List Nat}
    (hinv : Inv system (id :: rest)) :
    Inv ⟨handOut system.pool id system.serial,
      ⟨system.pool.blockOf id, system.serial + 1⟩ :: system.live,
      system.serial + 1, system.issued⟩ rest where
  shaped := ⟨hinv.shaped.size, hinv.shaped.count⟩
  ring := (Window.pop hinv.ring).2
  perm := by
    have hperm := hinv.perm
    rw [List.map_cons] at hperm
    exact List.perm_middle.trans hperm
  cleared := by
    intro other hother
    have hne : other ≠ id := by
      rintro rfl
      have hnodup := (List.nodup_append.mp hinv.nodup).1
      rw [List.map_cons] at hnodup
      exact (List.nodup_cons.mp hnodup).1 (List.mem_map.mpr ⟨other, hother, rfl⟩)
    have hplace : system.pool.headerOf other ≠ system.pool.headerOf id :=
      fun heq => hne (headerOf_inj hinv.shaped heq)
    exact (Function.update_of_ne hplace _ _).trans
      (hinv.cleared other (List.mem_cons_of_mem _ hother))
  marked := by
    intro allocation hmem other hblock
    rcases List.mem_cons.mp hmem with rfl | hold
    · have heq : other = id := blockOf_inj hinv.shaped hblock
      subst heq
      exact Function.update_self _ _ _
    · have hne : other ≠ id := by
        rintro rfl
        refine hinv.idle_not_live (List.mem_cons_self) ?_
        exact List.mem_map.mpr ⟨allocation, hold, hblock.symm⟩
      have hplace : system.pool.headerOf other ≠ system.pool.headerOf id :=
        fun heq => hne (headerOf_inj hinv.shaped heq)
      exact (Function.update_of_ne hplace _ _).trans (hinv.marked allocation hold other hblock)
  magic := rfl
  serials := by
    intro allocation hmem
    rcases List.mem_cons.mp hmem with rfl | hold
    · exact ⟨Nat.succ_pos _, Nat.le_refl _⟩
    · have hbounds := hinv.serials allocation hold
      exact ⟨hbounds.1, Nat.le_succ_of_le hbounds.2⟩
  numbered := by
    rw [List.map_cons, List.nodup_cons]
    refine ⟨?_, hinv.numbered⟩
    intro hmem
    obtain ⟨allocation, hold, heq⟩ := List.mem_map.mp hmem
    have hbounds := (hinv.serials allocation hold).2
    dsimp only at heq
    omega
  unowned := hinv.unowned
  owned := by
    intro key serial hmem
    obtain ⟨hmagic, hbounds, other, hother, hid, hlive⟩ := hinv.owned key serial hmem
    refine ⟨hmagic, ⟨hbounds.1, Nat.le_succ_of_le hbounds.2⟩, other, hother, hid, ?_⟩
    intro allocation hmem hserial
    rcases List.mem_cons.mp hmem with rfl | hold
    · have hnew : system.serial + 1 = serial := hserial
      omega
    · exact hlive allocation hold hserial

theorem Inv.alloc {system : System} {idle : List Nat} (hinv : Inv system idle)
    (hserial : system.serial + 1 < 2 ^ 32) : ∃ other, Inv system.alloc other := by
  cases idle with
  | nil =>
    refine ⟨[], ?_⟩
    unfold System.alloc
    rw [hinv.alloc_nil]
    exact hinv
  | cons id rest =>
    refine ⟨rest, ?_⟩
    unfold System.alloc
    rw [hinv.alloc_cons hserial]
    exact hinv.handOut

/-- The pool after the live block `id` was returned to it. -/
def takeBack (pool : Pool) (id : Nat) : Pool :=
  { pool with
    header := Function.update pool.header (pool.headerOf id) ⟨0, 0⟩
    ids := Function.update pool.ids pool.endIndex id
    endIndex := nextSlot (pool.blockCount + 1) pool.endIndex }

private theorem free_accepted {pool : Pool} (hshaped : Shaped pool) {id : Nat}
    (haccepts : pool.accepts (pool.blockOf id) = true) :
    free pool (pool.blockOf id) = (takeBack pool id, 0) := by
  unfold free
  rw [if_pos haccepts, headerOf_eq, idOf_blockOf hshaped]
  rfl

private theorem free_refused {pool : Pool} {block : Int} (hrefused : pool.accepts block = false) :
    free pool block = (pool, -1) := by
  unfold free
  rw [hrefused, if_neg Bool.false_ne_true]

private theorem perm_erase_block {live : List Allocation}
    (hnodup : (live.map Allocation.block).Nodup)
    {allocation : Allocation} (hmem : allocation ∈ live) :
    (live.map Allocation.block).Perm (allocation.block ::
      (live.filter fun other => other.block ≠ allocation.block).map Allocation.block) := by
  have hblock : allocation.block ∈ live.map Allocation.block :=
    List.mem_map.mpr ⟨allocation, hmem, rfl⟩
  have hfilter : (live.filter fun other => other.block ≠ allocation.block).map Allocation.block =
      (live.map Allocation.block).erase allocation.block := by
    rw [hnodup.erase_eq_filter, List.filter_map]
    congr 2
    funext other
    by_cases heq : other.block = allocation.block <;> simp [heq]
  rw [hfilter]
  exact List.perm_cons_erase hblock

theorem Inv.takeBack {system : System} {idle : List Nat} (hinv : Inv system idle) {id : Nat}
    (hid : id < system.pool.blockCount) {allocation : Allocation}
    (hlive : allocation ∈ system.live) (hblock : system.pool.blockOf id = allocation.block) :
    Inv ⟨takeBack system.pool id,
      system.live.filter fun other => other.block ≠ allocation.block,
      system.serial, system.issued⟩ (idle ++ [id]) where
  shaped := ⟨hinv.shaped.size, hinv.shaped.count⟩
  ring := by
    rw [List.map_append]
    exact hinv.ring.push hinv.room (id : Int)
  perm := by
    have hnodup := (List.nodup_append.mp hinv.nodup).2.1
    have herase := (perm_erase_block hnodup hlive).append_left
      (idle.map fun id : Nat => system.pool.blockOf id)
    refine List.Perm.trans ?_ (herase.symm.trans hinv.perm)
    rw [List.map_append, List.append_assoc, ← hblock]
    exact List.Perm.refl _
  cleared := by
    intro other hother
    by_cases heq : other = id
    · subst heq
      exact Function.update_self _ _ _
    · have hmem : other ∈ idle := by
        rcases List.mem_append.mp hother with hidle | hlast
        · exact hidle
        · exact absurd (List.mem_singleton.mp hlast) heq
      have hplace : system.pool.headerOf other ≠ system.pool.headerOf id :=
        fun hplace => heq (headerOf_inj hinv.shaped hplace)
      exact (Function.update_of_ne hplace _ _).trans (hinv.cleared other hmem)
  marked := by
    intro other hmem number hnumber
    obtain ⟨hold, hkept⟩ := List.mem_filter.mp hmem
    have hne : number ≠ id := by
      rintro rfl
      exact of_decide_eq_true hkept (hnumber.symm.trans hblock)
    have hplace : system.pool.headerOf number ≠ system.pool.headerOf id :=
      fun heq => hne (headerOf_inj hinv.shaped heq)
    exact (Function.update_of_ne hplace _ _).trans (hinv.marked other hold number hnumber)
  magic := hinv.magic
  serials := fun other hmem => hinv.serials other (List.mem_filter.mp hmem).1
  numbered := hinv.numbered.sublist (List.filter_sublist.map Allocation.serial)
  unowned := hinv.unowned
  owned := by
    intro key serial hmem
    obtain ⟨hmagic, hbounds, number, hnumber, hkey, hnamed⟩ := hinv.owned key serial hmem
    exact ⟨hmagic, hbounds, number, hnumber, hkey,
      fun other hother => hnamed other (List.mem_filter.mp hother).1⟩

theorem Inv.free {system : System} {idle : List Nat} (hinv : Inv system idle)
    (hserial : system.serial < 2 ^ 32) {block : Int} (hblock : block ∈ system.pool.blocks) :
    ∃ other, Inv (system.free block) other := by
  cases haccepts : system.pool.accepts block with
  | false =>
    refine ⟨idle, ?_⟩
    unfold System.free
    rw [free_refused haccepts]
    exact hinv
  | true =>
    have hlive := (hinv.accepts_iff hserial hblock).mp haccepts
    obtain ⟨allocation, hmem, rfl⟩ := List.mem_map.mp hlive
    obtain ⟨id, hid, heq⟩ := hinv.live_id hmem
    refine ⟨idle ++ [id], ?_⟩
    rw [← heq] at haccepts
    unfold System.free
    rw [← heq, free_accepted hinv.shaped haccepts, heq]
    exact hinv.takeBack hid hmem heq

private theorem owner_eq_none {system : System} {block : Int} :
    system.owner block = none ↔ block ∉ system.live.map Allocation.block := by
  unfold System.owner
  rw [Option.map_eq_none_iff, List.find?_eq_none]
  simp only [decide_eq_true_eq, List.mem_map, not_exists, not_and]

private theorem owner_eq_some {system : System} {block : Int} {serial : Nat}
    (howner : system.owner block = some serial) : ⟨block, serial⟩ ∈ system.live := by
  unfold System.owner at howner
  obtain ⟨allocation, hfind, rfl⟩ := Option.map_eq_some_iff.mp howner
  have hblock : allocation.block = block := by
    have hfound := List.find?_some hfind
    simpa using hfound
  exact hblock ▸ List.mem_of_find?_eq_some hfind

private theorem eq_of_serial {live : List Allocation}
    (hnumbered : (live.map Allocation.serial).Nodup)
    {left right : Allocation} (hleft : left ∈ live) (hright : right ∈ live)
    (heq : left.serial = right.serial) : left = right :=
  List.inj_on_of_nodup_map hnumbered hleft hright heq

theorem Inv.names {system : System} {idle : List Nat} (hinv : Inv system idle)
    {allocation : Allocation} (hlive : allocation ∈ system.live) :
    Names system (system.pool.header (allocation.block - headerSize)) allocation.serial := by
  obtain ⟨id, hid, hblock⟩ := hinv.live_id hlive
  have hheader := hinv.marked allocation hlive id hblock
  rw [← hblock, headerOf_eq, hheader]
  refine ⟨rfl, hinv.serials allocation hlive, id, hid, rfl, ?_⟩
  intro other hother hserial
  rw [eq_of_serial hinv.numbered hother hlive hserial]
  exact hblock.symm

theorem Inv.getkey {system : System} {idle : List Nat} (hinv : Inv system idle)
    (hserial : system.serial < 2 ^ 32) {block : Int} (hblock : block ∈ system.pool.blocks) :
    Inv (system.getkey block) idle := by
  refine { hinv with unowned := ?_, owned := ?_ }
  · intro key hmem
    rcases List.mem_cons.mp hmem with hnew | hold
    · obtain ⟨hkey, howner⟩ := Prod.mk.inj hnew
      have hrefused : system.pool.accepts block = false := by
        rw [← Bool.not_eq_true, hinv.accepts_iff hserial hblock]
        exact owner_eq_none.mp howner.symm
      rw [hkey]
      unfold BlockPool.getkey
      rw [hrefused, if_neg Bool.false_ne_true]
    · exact hinv.unowned key hold
  · intro key serial hmem
    rcases List.mem_cons.mp hmem with hnew | hold
    · obtain ⟨hkey, howner⟩ := Prod.mk.inj hnew
      have hlive := owner_eq_some howner.symm
      have haccepts := hinv.accepts_live hserial hlive
      rw [hkey]
      unfold BlockPool.getkey
      rw [if_pos haccepts]
      exact { hinv.names hlive with }
    · exact { hinv.owned key serial hold with }

private theorem initBlocks (pool : Pool) (n : Nat) :
    ∃ ids header, (List.range n).foldl initBlock pool =
        { pool with ids := ids, header := header } ∧
      (∀ i < n, ids i = (i : Int)) ∧ ∀ i < n, header (pool.headerOf (i : Nat)) = ⟨0, 0⟩ := by
  induction n with
  | zero => exact ⟨pool.ids, pool.header, rfl, by omega, by omega⟩
  | succ n ih =>
    obtain ⟨ids, header, hfold, hids, hheader⟩ := ih
    refine ⟨Function.update ids n n,
      Function.update header (pool.headerOf n) ⟨0, 0⟩, ?_, ?_, ?_⟩
    · rw [List.range_succ, List.foldl_append, hfold]
      rfl
    · intro i hi
      rcases Nat.lt_succ_iff_lt_or_eq.mp hi with hlt | rfl
      · rw [Function.update_of_ne (by omega)]
        exact hids i hlt
      · exact Function.update_self _ _ _
    · intro i hi
      by_cases hplace : pool.headerOf i = pool.headerOf n
      · rw [hplace]
        exact Function.update_self _ _ _
      · rw [Function.update_of_ne hplace]
        refine hheader i ?_
        rcases Nat.lt_succ_iff_lt_or_eq.mp hi with hlt | rfl
        · exact hlt
        · exact absurd rfl hplace

def emptyPool (memory : Pool) (blockSize : Int) (blockCount : Nat) : Pool :=
  { memory with
    blockSize := blockSize + headerSize
    blockCount := blockCount
    beginIndex := 0
    nextMagic := 0
    endIndex := blockCount }

private theorem init_eq_some {addr : Option Pool} {total blockSize : Int} {blockCount : Int32}
    {pool : Pool} (hinit : init addr total blockSize blockCount = some pool) :
    ∃ memory, 0 < blockSize ∧ pool = (List.range blockCount.toInt.toNat).foldl initBlock
      (emptyPool memory blockSize blockCount.toInt.toNat) := by
  unfold init at hinit
  obtain ⟨memory, -, hinit⟩ := Option.bind_eq_some_iff.mp hinit
  split_ifs at hinit with hvalid
  cases hinit
  exact ⟨memory, hvalid.1, rfl⟩

theorem init_inv {addr : Option Pool} {total blockSize : Int} {blockCount : Int32}
    {pool : Pool} (hinit : init addr total blockSize blockCount = some pool) :
    Inv (start pool) (List.range pool.blockCount) := by
  obtain ⟨memory, hsize, hpool⟩ := init_eq_some hinit
  obtain ⟨ids, header, hfold, hids, hheader⟩ := initBlocks
    (emptyPool memory blockSize blockCount.toInt.toNat) blockCount.toInt.toNat
  have hint := blockCount.toInt_lt
  generalize hcount : blockCount.toInt.toNat = count at *
  rw [hfold] at hpool
  subst hpool
  refine ⟨⟨?_, ?_⟩, ⟨?_, ?_, ?_, ?_⟩, ?_, ?_, ?_, rfl, ?_, ?_, ?_, ?_⟩
  · change headerSize < blockSize + headerSize
    omega
  · change count < 2 ^ 31
    omega
  · exact Nat.succ_pos _
  · rw [List.length_map, List.length_range]
    exact Nat.le_succ _
  · change count = (0 + ((List.range count).map Int.ofNat).length) % (count + 1)
    rw [List.length_map, List.length_range, Nat.zero_add, Nat.mod_eq_of_lt (Nat.lt_succ_self _)]
  · intro i item hitem
    change ids ((0 + i) % (count + 1)) = item
    change ((List.range count).map Int.ofNat)[i]? = some item at hitem
    rw [List.getElem?_map] at hitem
    obtain ⟨number, hnumber, rfl⟩ := Option.map_eq_some_iff.mp hitem
    obtain ⟨hi, hnumber⟩ := List.getElem?_eq_some_iff.mp hnumber
    rw [List.length_range] at hi
    rw [List.getElem_range] at hnumber
    rw [Nat.zero_add, Nat.mod_eq_of_lt (by omega), hids i hi, hnumber]
    rfl
  · simp [start, Pool.blocks]
  · intro id hid
    exact hheader id (List.mem_range.mp hid)
  all_goals simp [start]

theorem Inv.used {system : System} {idle : List Nat} (hinv : Inv system idle) :
    (BlockPool.used system.pool).toInt = system.live.length := by
  have hcounts := hinv.counts
  have hcount := hinv.shaped.count
  have hstart := hinv.ring.start_lt
  have hstop := hinv.ring.stop_cases hinv.room
  rw [List.length_map] at hstop
  have hl : (Int32.ofInt ((system.pool.beginIndex : Int) - system.pool.endIndex)).toInt =
      (system.pool.beginIndex : Int) - system.pool.endIndex :=
    Int32.toInt_ofInt_of_le (by omega) (by omega)
  unfold BlockPool.used
  simp only [hl]
  split_ifs with hpos
  · rw [Int32.toInt_ofInt_of_le (by omega) (by omega)]
    omega
  · rw [Int32.toInt_ofInt_of_le (by omega) (by omega)]
    omega

theorem Inv.getblock_owned {system : System} {idle : List Nat} (hinv : Inv system idle)
    (hserial : system.serial < 2 ^ 32) {key : Header} {serial : Nat}
    (hnames : Names system key serial) (block : Int) :
    getblock system.pool key = some block ↔ ⟨block, serial⟩ ∈ system.live := by
  obtain ⟨hmagic, hbounds, id, hid, hkey, hblock⟩ := hnames
  have hserialLt : serial < 2 ^ 32 := Nat.lt_of_le_of_lt hbounds.2 hserial
  have hnonzero : key.magic ≠ 0 := hmagic ▸ magicOf_ne_zero hbounds.1 hserialLt
  have hint : key.id.toInt = id := by rw [hkey, toInt_ofInt hinv.shaped hid]
  have hvalid : key.magic ≠ 0 ∧ key.id.toInt ≥ 0 ∧ key.id.toInt < system.pool.blockCount :=
    ⟨hnonzero, by omega, by omega⟩
  unfold getblock
  rw [if_pos hvalid, hint]
  constructor
  · intro hfound
    split_ifs at hfound with hheader
    cases hfound
    rcases hinv.idle_or_live hid with hidle | ⟨allocation, hlive, heq⟩
    · rw [hinv.cleared id hidle] at hheader
      exact absurd (congrArg Header.magic hheader).symm hnonzero
    · rw [hinv.marked allocation hlive id heq.symm] at hheader
      have hallocation := hinv.serials allocation hlive
      have hsame : allocation.serial = serial :=
        magicOf_inj (Nat.lt_of_le_of_lt hallocation.2 hserial) hserialLt
          ((congrArg Header.magic hheader).trans hmagic)
      rw [← heq, ← hsame]
      exact hlive
  · intro hlive
    have hplace : block = system.pool.blockOf id := hblock _ hlive rfl
    have hheader := hinv.marked _ hlive id hplace.symm
    have hsame : system.pool.header (system.pool.headerOf id) = key := by
      rw [hheader, ← hmagic, ← hkey]
    rw [if_pos hsame, hplace]

theorem Inv.sound {system : System} {idle : List Nat} (hinv : Inv system idle)
    (hserial : system.serial + 1 < 2 ^ 32) : Sound system where
  distinct := (List.nodup_append.mp hinv.nodup).2.1
  fresh := by
    intro next block halloc
    cases idle with
    | nil =>
      rw [hinv.alloc_nil] at halloc
      cases halloc
    | cons id rest =>
      rw [hinv.alloc_cons hserial] at halloc
      cases halloc
      have hid : id ∈ id :: rest := List.mem_cons_self
      exact ⟨mem_blocks.mpr ⟨id, hinv.idle_lt hid, rfl⟩, hinv.idle_not_live hid⟩
  full := by
    cases idle with
    | nil =>
      rw [hinv.alloc_nil]
      refine ⟨fun _ block hblock => ?_, fun _ => rfl⟩
      exact hinv.perm.mem_iff.mpr hblock
    | cons id rest =>
      rw [hinv.alloc_cons hserial]
      have hid : id ∈ id :: rest := List.mem_cons_self
      refine ⟨fun hnone => (Option.some_ne_none _ hnone).elim, fun hall => ?_⟩
      exact absurd (hall _ (mem_blocks.mpr ⟨id, hinv.idle_lt hid, rfl⟩))
        (hinv.idle_not_live hid)
  used := hinv.used
  dead := by
    intro block hblock hdead
    have haccepts := hinv.accepts_iff (Nat.lt_of_succ_lt hserial) hblock
    exact free_refused (Bool.not_eq_true _ ▸ fun htrue => hdead (haccepts.mp htrue))
  freed := by
    intro block hlive
    obtain ⟨allocation, hmem, rfl⟩ := List.mem_map.mp hlive
    obtain ⟨id, -, hblock⟩ := hinv.live_id hmem
    have haccepts := hinv.accepts_live (Nat.lt_of_succ_lt hserial) hmem
    rw [← hblock] at haccepts ⊢
    rw [free_accepted hinv.shaped haccepts]
  keys := by
    intro key owner hissued block
    cases owner with
    | none =>
      have hzero := hinv.unowned key hissued
      have hnot : ¬(key.magic ≠ 0 ∧ key.id.toInt ≥ 0 ∧ key.id.toInt < system.pool.blockCount) :=
        fun hvalid => hvalid.1 hzero
      unfold getblock
      rw [if_neg hnot]
      simp
    | some serial =>
      rw [hinv.getblock_owned (Nat.lt_of_succ_lt hserial) (hinv.owned key serial hissued)]
      simp

def allocations (calls : List Call) : Nat := calls.countP Call.isAlloc

private theorem serial_alloc_le (system : System) : system.alloc.serial ≤ system.serial + 1 := by
  unfold System.alloc
  split
  · exact Nat.le_refl _
  · exact Nat.le_succ _

@[simp] private theorem serial_free (system : System) (block : Int) :
    (system.free block).serial = system.serial := by
  unfold System.free
  split <;> rfl

/-- One call: the invariant holds again, and only an allocation uses up a number. -/
theorem Inv.afterCall {system next : System} {idle : List Nat} {call : Call}
    (hinv : Inv system idle) (hserial : system.serial + 1 < 2 ^ 32)
    (hstep : step system call = some next) :
    (∃ other, Inv next other) ∧ next.serial ≤ system.serial + allocations [call] := by
  cases call with
  | alloc =>
    cases hstep
    exact ⟨hinv.alloc hserial, serial_alloc_le system⟩
  | free block =>
    simp only [step] at hstep
    split_ifs at hstep with hblock
    cases hstep
    refine ⟨hinv.free (Nat.lt_of_succ_lt hserial) hblock, ?_⟩
    rw [serial_free]
    exact Nat.le_refl _
  | getkey block =>
    simp only [step] at hstep
    split_ifs at hstep with hblock
    cases hstep
    exact ⟨⟨idle, hinv.getkey (Nat.lt_of_succ_lt hserial) hblock⟩, Nat.le_refl _⟩
  | getblock key =>
    cases hstep
    exact ⟨⟨idle, hinv⟩, Nat.le_refl _⟩

theorem Inv.afterRun {calls : List Call} {system final : System} {idle : List Nat}
    (hinv : Inv system idle) (hfew : system.serial + allocations calls + 1 < 2 ^ 32)
    (hrun : run step system calls = some final) :
    (∃ other, Inv final other) ∧ final.serial + 1 < 2 ^ 32 := by
  induction calls generalizing system idle with
  | nil =>
    cases hrun
    exact ⟨⟨idle, hinv⟩, hfew⟩
  | cons call rest ih =>
    obtain ⟨next, hstep, hrest⟩ := run_cons_eq_some.mp hrun
    have hsplit : allocations (call :: rest) = allocations [call] + allocations rest := by
      unfold allocations
      rw [← List.countP_append]
      rfl
    obtain ⟨⟨other, hnext⟩, hserial⟩ := hinv.afterCall (by omega) hstep
    exact ih hnext (by omega) hrest

/-- Any history of fewer than 2^32 - 1 allocations mixed with frees and key
lookups leaves the pool in step with the blocks that are live. -/
theorem pool_sound {addr : Option Pool} {total blockSize : Int} {blockCount : Int32}
    {pool : Pool} {calls : List Call} {final : System}
    (hinit : init addr total blockSize blockCount = some pool)
    (hfew : allocations calls < 2 ^ 32 - 1)
    (hrun : run step (start pool) calls = some final) : Sound final := by
  have hstart : (start pool).serial = 0 := rfl
  obtain ⟨⟨idle, hinv⟩, hserial⟩ := (init_inv hinit).afterRun (by omega) hrun
  exact hinv.sound hserial

def blankMemory : Pool := ⟨0, 0, 0, 0, 0, fun _ => 0, fun _ => ⟨0, 0⟩⟩

def twoBlocks : Pool := (List.range 2).foldl initBlock (emptyPool blankMemory 4 2)

/-- Both blocks are handed out, one is returned twice and handed out again, and
its old key is shown once more. -/
theorem pool_sound_stale : ∃ final,
    run step (start twoBlocks) [.alloc, .getkey 8, .alloc, .alloc, .free 8, .free 8, .alloc,
      .getblock ⟨0, 1⟩] = some final ∧ Sound final := by
  have hsome : (run step (start twoBlocks) [.alloc, .getkey 8, .alloc, .alloc, .free 8, .free 8,
      .alloc, .getblock ⟨0, 1⟩]).isSome = true := by decide
  have hinit : init (some blankMemory) 96 4 2 = some twoBlocks := rfl
  obtain ⟨final, hrun⟩ := Option.isSome_iff_exists.mp hsome
  exact ⟨final, hrun, pool_sound hinit (by decide) hrun⟩

end Libsax.Memory.BlockPool
