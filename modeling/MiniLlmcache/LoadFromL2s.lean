import MiniLlmcache.FSAdapter
import MiniLlmcache.LookupReach

/-!
# Loading from several adapters

`load_from_l2s` as a function on the pool, over adapters that are known by what they hold when they
are asked and by what their `load` does. The loop asks them in the order of their hits, each for
the slots after those counted so far, and logs its calls.

`load_from_l2s_sound` : whatever prefix each adapter fills, every slot counted has the bytes of its
own key in the adapter that counted it, and no later call changes it; and all slots are counted if
the adapters still hold what they reported and stop only at a chunk they do not hold. The adapters
of the repository are such adapters (`MockAdapter.sound`, `FSAdapter.sound`), and the prefetch
worker of `System` goes through the same loop (`System.run_of_loadLoop`).
-/

namespace MiniLlmcache

/-! ## Adapters -/

/-- An adapter when it is asked to load. -/
structure Loader where
  chunks : ChunkKey → Option Bytes
  load : PoolAllocator → List (ChunkKey × MemoryObj) → Outcome PoolAllocator ℕ

/-- The first `n` slots have the bytes of their keys, and nothing beyond the slots has changed. -/
structure Filled (chunks : ChunkKey → Option Bytes) (slots : List (ChunkKey × MemoryObj))
    (pool pool' : PoolAllocator) (n : ℕ) : Prop where
  le : n ≤ slots.length
  bytes : ∀ i key obj, i < n → slots[i]? = some (key, obj) → chunks key = some (pool'.bytes obj)
  frame : ∀ obj, (∀ p ∈ slots, p.2.Disjoint obj) → pool'.bytes obj = pool.bytes obj

namespace Loader

variable (a : Loader) (slots : List (ChunkKey × MemoryObj))

/-- Asked for the slots from any of them on, it fills a prefix and returns its length. -/
def Sound : Prop := ∀ pool k, ∃ pool' n, a.load pool (slots.drop k) = .returned pool' n ∧
  Filled a.chunks (slots.drop k) pool pool' n

/-- It has a chunk of the slot's size. -/
def Holds (slot : ChunkKey × MemoryObj) : Prop :=
  ∃ data, a.chunks slot.1 = some data ∧ data.length = slot.2.nbytes

/-- It stops only at a chunk that it does not hold. -/
def Exhaustive : Prop := ∀ pool k pool' n, a.load pool (slots.drop k) = .returned pool' n →
  ∀ slot, (slots.drop k)[n]? = some slot → ¬a.Holds slot

end Loader

theorem disjoint_of_slots {slots : List (ChunkKey × MemoryObj)} {j k : ℕ}
    {slot slot' : ChunkKey × MemoryObj} (hdisj : (slots.map Prod.snd).Pairwise MemoryObj.Disjoint)
    (hjk : j < k) (hj : slots[j]? = some slot) (hk : slots[k]? = some slot') :
    slot.2.Disjoint slot'.2 := by
  obtain ⟨hj', rfl⟩ := List.getElem?_eq_some_iff.mp hj
  obtain ⟨hk', rfl⟩ := List.getElem?_eq_some_iff.mp hk
  exact List.pairwise_iff_getElem.mp (List.pairwise_map.mp hdisj) j k hj' hk' hjk

/-- A slot before those the adapter was given is as it was. -/
theorem Filled.kept {chunks : ChunkKey → Option Bytes} {slots : List (ChunkKey × MemoryObj)}
    {start n j : ℕ} {pool pool' : PoolAllocator} {slot : ChunkKey × MemoryObj}
    (h : Filled chunks (slots.drop start) pool pool' n)
    (hdisj : (slots.map Prod.snd).Pairwise MemoryObj.Disjoint) (hj : j < start)
    (hslot : slots[j]? = some slot) : pool'.bytes slot.2 = pool.bytes slot.2 := by
  refine h.frame slot.2 fun q hq => ?_
  obtain ⟨k, hk⟩ := List.mem_iff_getElem?.mp hq
  rw [List.getElem?_drop] at hk
  exact (disjoint_of_slots hdisj (by omega) hslot hk).symm

/-! ## The loop of a `load` -/

/-- What an adapter finds for a slot. -/
inductive Fetched
  | missing
  /-- Fewer bytes than the slot has. -/
  | short (data : Bytes)
  | full (data : Bytes)
  | raises (e : Exc)

/-- Fill the slots one after the other, up to the first that is not filled. -/
def fillSlots (fetch : ChunkKey → MemoryObj → Fetched) :
    PoolAllocator → List (ChunkKey × MemoryObj) → ℕ → Outcome PoolAllocator ℕ
  | pool, [], loaded => .returned pool loaded
  | pool, (key, obj) :: slots, loaded =>
    match fetch key obj with
    | .missing => .returned pool loaded
    | .short data => .returned (pool.copy obj data) loaded
    | .full data => fillSlots fetch (pool.copy obj data) slots (loaded + 1)
    | .raises e => .raised pool e

/-- What is found for a slot fits it, and is a chunk of its key when it fills it. -/
def Fetched.Fits (chunks : ChunkKey → Option Bytes) (key : ChunkKey) (obj : MemoryObj) :
    Fetched → Prop
  | .missing => True
  | .short data => data.length ≤ obj.nbytes
  | .full data => data.length = obj.nbytes ∧ chunks key = some data
  | .raises _ => False

variable {chunks : ChunkKey → Option Bytes} {fetch : ChunkKey → MemoryObj → Fetched}

/-- The loop fills a prefix, and stops at a slot that is not filled. -/
theorem fillSlots_spec : ∀ (slots : List (ChunkKey × MemoryObj)) (pool : PoolAllocator)
    (loaded : ℕ), (slots.map Prod.snd).Pairwise MemoryObj.Disjoint →
    (∀ p ∈ slots, (fetch p.1 p.2).Fits chunks p.1 p.2) →
    ∃ pool' n, fillSlots fetch pool slots loaded = .returned pool' (loaded + n) ∧
      Filled chunks slots pool pool' n ∧
      ∀ slot, slots[n]? = some slot → ∀ data, fetch slot.1 slot.2 ≠ .full data
  | [], pool, loaded, _, _ => by
    refine ⟨pool, 0, rfl, ⟨Nat.le_refl _, nofun, fun _ _ => rfl⟩, nofun⟩
  | (key, obj) :: slots, pool, loaded, hdisj, hfits => by
    obtain ⟨hhead, htail⟩ := List.pairwise_cons.mp hdisj
    have hfit := hfits (key, obj) List.mem_cons_self
    have hstop : ∀ {pool' : PoolAllocator},
        (∀ obj', obj.Disjoint obj' → pool'.bytes obj' = pool.bytes obj') →
        Filled chunks ((key, obj) :: slots) pool pool' 0 := fun hsame =>
      ⟨Nat.zero_le _, fun i _ _ hi => absurd hi (Nat.not_lt_zero i),
        fun obj' hobj => hsame obj' (hobj _ List.mem_cons_self)⟩
    rcases hfetch : fetch key obj with _ | data | data | e
    · simp only [fillSlots, hfetch]
      refine ⟨pool, 0, rfl, hstop fun _ _ => rfl, fun slot hslot data hfull => ?_⟩
      cases hslot
      rw [hfetch] at hfull
      cases hfull
    · simp only [fillSlots, hfetch]
      simp only [hfetch, Fetched.Fits] at hfit
      refine ⟨_, 0, rfl, hstop fun obj' hd => pool.bytes_copy_of_le hfit hd,
        fun slot hslot data hfull => ?_⟩
      cases hslot
      rw [hfetch] at hfull
      cases hfull
    · simp only [fillSlots, hfetch]
      simp only [hfetch, Fetched.Fits] at hfit
      obtain ⟨hlen, hchunk⟩ := hfit
      obtain ⟨pool', n, hret, hfill, hnext⟩ := fillSlots_spec slots (pool.copy obj data)
        (loaded + 1) htail fun p hp => hfits p (List.mem_cons_of_mem _ hp)
      -- the slot that was just filled is not one of those still to fill
      have hkeep : pool'.bytes obj = data := by
        rw [hfill.frame obj fun p hp => (hhead p.2 (List.mem_map_of_mem hp)).symm]
        exact pool.bytes_copy_self hlen
      refine ⟨pool', n + 1, hret.trans (by rw [Nat.add_assoc, Nat.add_comm 1]),
        ⟨Nat.succ_le_succ hfill.le, fun i k o hi hslot => ?_, fun obj' hobj => ?_⟩, hnext⟩
      · cases i with
        | zero =>
          cases hslot
          rw [hkeep, hchunk]
        | succ i => exact hfill.bytes i k o (by omega) hslot
      · rw [hfill.frame obj' fun p hp => hobj p (List.mem_cons_of_mem _ hp)]
        exact pool.bytes_copy_of_le hlen.le (hobj _ List.mem_cons_self)
    · rw [hfetch] at hfit
      exact hfit.elim

variable {slots : List (ChunkKey × MemoryObj)} {a : Loader}

/-- An adapter whose `load` is that loop, over slots that what it finds fits. -/
theorem Loader.sound_of_fillSlots
    (ha : ∀ pool slots, a.load pool slots = fillSlots fetch pool slots 0)
    (hdisj : (slots.map Prod.snd).Pairwise MemoryObj.Disjoint)
    (hfits : ∀ p ∈ slots, (fetch p.1 p.2).Fits a.chunks p.1 p.2)
    (hfull : ∀ p ∈ slots, ∀ data, a.chunks p.1 = some data → data.length = p.2.nbytes →
      fetch p.1 p.2 = .full data) : a.Sound slots ∧ a.Exhaustive slots := by
  have hload : ∀ pool k, ∃ pool' n, a.load pool (slots.drop k) = .returned pool' n ∧
      Filled a.chunks (slots.drop k) pool pool' n ∧
      ∀ slot, (slots.drop k)[n]? = some slot → ∀ data, fetch slot.1 slot.2 ≠ .full data := by
    intro pool k
    obtain ⟨pool', n, hret, hfill, hnext⟩ := fillSlots_spec (slots.drop k) pool 0
      (hdisj.sublist ((List.drop_sublist k slots).map _))
      fun p hp => hfits p (List.mem_of_mem_drop hp)
    exact ⟨pool', n, by rw [ha, hret, Nat.zero_add], hfill, hnext⟩
  refine ⟨fun pool k => ?_, ?_⟩
  · obtain ⟨pool', n, hret, hfill, -⟩ := hload pool k
    exact ⟨pool', n, hret, hfill⟩
  · rintro pool k pool' n hret slot hslot ⟨data, hchunk, hlen⟩
    obtain ⟨pool₁, n₁, hret₁, -, hnext⟩ := hload pool k
    rw [hret] at hret₁
    cases hret₁
    exact hnext slot hslot data
      (hfull slot (List.mem_of_mem_drop (List.mem_of_getElem? hslot)) data hchunk hlen)

/-- `MockAdapter`. -/
structure MockAdapter where
  chunks : OrderedDict ChunkKey Bytes

namespace MockAdapter

/-- `obj.byte_array[:] = data` wants as many bytes as the slot has. -/
def fetched (m : MockAdapter) (key : ChunkKey) (obj : MemoryObj) : Fetched :=
  match m.chunks.get? key with
  | none => .missing
  | some data => if data.length = obj.nbytes then .full data else .raises .valueError

def load (m : MockAdapter) (pool : PoolAllocator) (slots : List (ChunkKey × MemoryObj)) :
    Outcome PoolAllocator ℕ :=
  fillSlots m.fetched pool slots 0

def loader (m : MockAdapter) : Loader := ⟨m.chunks.get?, m.load⟩

/-- Over slots of the sizes of its chunks it fills a prefix, up to the first missing chunk. -/
theorem sound {m : MockAdapter} (hdisj : (slots.map Prod.snd).Pairwise MemoryObj.Disjoint)
    (hsize : ∀ p ∈ slots, ∀ data, m.chunks.get? p.1 = some data → data.length = p.2.nbytes) :
    m.loader.Sound slots ∧ m.loader.Exhaustive slots := by
  refine Loader.sound_of_fillSlots (a := m.loader) (fun _ _ => rfl) hdisj (fun p hp => ?_)
    fun p hp data hget hlen => ?_
  · rcases hget : m.chunks.get? p.1 with _ | data
    · simp only [fetched, hget, Fetched.Fits]
    · have hlen := hsize p hp data hget
      simp only [fetched, hget, if_pos hlen, Fetched.Fits]
      exact ⟨hlen, hget⟩
  · have hchunk : m.chunks.get? p.1 = some data := hget
    simp only [fetched, hchunk, if_pos hlen]

end MockAdapter

namespace FSAdapter

/-- `f.readinto(obj.byte_array) != obj.nbytes` : a file may be shorter than the slot. -/
def fetched (fs : FSAdapter) (key : ChunkKey) (obj : MemoryObj) : Fetched :=
  match fs.stored? (filename key) with
  | none => .missing
  | some data => if data.length < obj.nbytes then .short data else .full (data.take obj.nbytes)

def load (fs : FSAdapter) (pool : PoolAllocator) (slots : List (ChunkKey × MemoryObj)) :
    Outcome PoolAllocator ℕ :=
  fillSlots fs.fetched pool slots 0

def loader (fs : FSAdapter) : Loader := ⟨fun key => fs.stored? (filename key), fs.load⟩

/-- Over slots that no file is longer than it fills a prefix, up to the first file that is missing
or too short. -/
theorem sound {fs : FSAdapter} (hdisj : (slots.map Prod.snd).Pairwise MemoryObj.Disjoint)
    (hsize : ∀ p ∈ slots, ∀ data, fs.stored? (filename p.1) = some data →
      data.length ≤ p.2.nbytes) : fs.loader.Sound slots ∧ fs.loader.Exhaustive slots := by
  refine Loader.sound_of_fillSlots (a := fs.loader) (fun _ _ => rfl) hdisj (fun p hp => ?_)
    fun p hp data hget hlen => ?_
  · rcases hget : fs.stored? (filename p.1) with _ | data
    · simp only [fetched, hget, Fetched.Fits]
    · have hle := hsize p hp data hget
      simp only [fetched, hget]
      split_ifs with hlt
      · exact hle
      · have hlen : data.length = p.2.nbytes := by omega
        rw [← hlen, List.take_length]
        exact ⟨hlen, hget⟩
  · have hchunk : fs.stored? (filename p.1) = some data := hget
    simp only [fetched, hchunk, ← hlen, List.take_length, if_neg (lt_irrefl data.length)]

end FSAdapter

/-! ## The loop of `load_from_l2s` -/

/-- One call of a `load` : the adapter, the slots counted before it, and those it counts. -/
structure LoadTask where
  adapter : ℕ
  start : ℕ
  count : ℕ
  before : PoolAllocator
  after : PoolAllocator

/-- It counted slot `j`. -/
def LoadTask.Counted (c : LoadTask) (j : ℕ) : Prop := c.start ≤ j ∧ j < c.start + c.count

namespace Prefetch

/-- The loop over the adapters still to ask; `p.loaded` is the count. -/
def loadLoop (l2s : ℕ → Loader) : List ℕ → Prefetch → PoolAllocator → List LoadTask →
    Outcome (PoolAllocator × List LoadTask) Prefetch
  | [], p, pool, calls => .returned (pool, calls) p
  | i :: order, p, pool, calls =>
    if p.loaded = p.load.length ∨ p.l2Hit i ≤ p.loaded then .returned (pool, calls) p
    else
      match (l2s i).load pool (p.load.drop p.loaded) with
      | .raised pool e => .raised (pool, calls) e
      | .returned pool' n => loadLoop l2s order { p with loaded := p.loaded + n } pool'
          (calls ++ [⟨i, p.loaded, n, pool, pool'⟩])

/-- Fill chunks from `n` L2s, best-hit adapter first. -/
def loadFromL2s (p : Prefetch) (l2s : ℕ → Loader) (n : ℕ) (pool : PoolAllocator) :
    Outcome (PoolAllocator × List LoadTask) Prefetch :=
  loadLoop l2s (p.order n) { p with loaded := 0 } pool []

/-- Every slot counted has the chunk of the adapter that counted it, and no call changed a slot
counted before it. -/
structure Counts (l2s : ℕ → Loader) (p : Prefetch) (pool : PoolAllocator)
    (calls : List LoadTask) : Prop where
  le : p.loaded ≤ p.load.length
  counted : ∀ j key obj, j < p.loaded → p.load[j]? = some (key, obj) →
    ∃ c ∈ calls, c.Counted j ∧ (l2s c.adapter).chunks key = some (pool.bytes obj)
  kept : ∀ c ∈ calls, ∀ j key obj, j < c.start → p.load[j]? = some (key, obj) →
    c.after.bytes obj = c.before.bytes obj

variable {l2s : ℕ → Loader} {p : Prefetch} {pool pool' : PoolAllocator} {calls : List LoadTask}

/-- A call that fills a prefix of the slots after those counted. -/
theorem Counts.load (h : p.Counts l2s pool calls)
    (hdisj : (p.load.map Prod.snd).Pairwise MemoryObj.Disjoint) {i n : ℕ}
    (hfill : Filled (l2s i).chunks (p.load.drop p.loaded) pool pool' n) :
    ({ p with loaded := p.loaded + n } : Prefetch).Counts l2s pool'
      (calls ++ [⟨i, p.loaded, n, pool, pool'⟩]) := by
  have hle := hfill.le
  rw [List.length_drop] at hle
  have hbound := h.le
  refine ⟨by dsimp only; omega, fun j key obj hj hslot => ?_, fun c hc j key obj hj hslot => ?_⟩
  · rcases Nat.lt_or_ge j p.loaded with hlt | hge
    · obtain ⟨c, hc, hcount, hchunk⟩ := h.counted j key obj hlt hslot
      rw [← hfill.kept hdisj hlt hslot] at hchunk
      exact ⟨c, List.mem_append_left _ hc, hcount, hchunk⟩
    · refine ⟨_, List.mem_append_right _ (List.mem_singleton_self _), ⟨hge, hj⟩, ?_⟩
      refine hfill.bytes (j - p.loaded) key obj (by dsimp only at hj; omega) ?_
      rw [List.getElem?_drop, Nat.add_sub_cancel' hge]
      exact hslot
  · rcases List.mem_append.mp hc with hc | hc
    · exact h.kept c hc j key obj hj hslot
    · obtain rfl := List.mem_singleton.mp hc
      exact hfill.kept hdisj hj hslot

/-- Over adapters that fill prefixes the loop returns, and never counts less than before. -/
theorem Counts.loop (hdisj : (p.load.map Prod.snd).Pairwise MemoryObj.Disjoint) :
    ∀ (order : List ℕ) {loaded : ℕ} {pool : PoolAllocator} {calls : List LoadTask},
      (∀ i ∈ order, (l2s i).Sound p.load) →
      ({ p with loaded } : Prefetch).Counts l2s pool calls →
      ∃ pool' calls' total, loadLoop l2s order { p with loaded } pool calls =
          .returned (pool', calls') { p with loaded := total } ∧ loaded ≤ total ∧
        ({ p with loaded := total } : Prefetch).Counts l2s pool' calls'
  | [], loaded, pool, calls, _, h => ⟨pool, calls, loaded, rfl, Nat.le_refl _, h⟩
  | i :: order, loaded, pool, calls, hsound, h => by
    unfold loadLoop
    split_ifs with hstop
    · exact ⟨pool, calls, loaded, rfl, Nat.le_refl _, h⟩
    · obtain ⟨pool₁, n, hload, hfill⟩ := hsound i List.mem_cons_self pool loaded
      obtain ⟨pool', calls', total, hret, hle, hcounts⟩ := Counts.loop hdisj order
        (fun j hj => hsound j (List.mem_cons_of_mem i hj)) (h.load hdisj hfill)
      simp only [hload]
      exact ⟨pool', calls', total, hret, (Nat.le_add_right loaded n).trans hle, hcounts⟩

theorem counts_start (l2s : ℕ → Loader) (p : Prefetch) (pool : PoolAllocator) :
    ({ p with loaded := 0 } : Prefetch).Counts l2s pool [] :=
  ⟨Nat.zero_le _, fun j _ _ hj => absurd hj (Nat.not_lt_zero j), nofun⟩

theorem lt_of_mem_order {n i : ℕ} (hi : i ∈ p.order n) : i < n := by
  rw [order] at hi
  split_ifs at hi
  · cases hi
  · exact List.mem_range.mp ((List.mem_insertionSort _).mp hi)

/-- With slots to fill there is an adapter to ask first, and it has reported them all. -/
theorem exists_head_order {n : ℕ} (hne : p.load ≠ []) (hn : p.l2Hits.length = n)
    (hmax : p.load.length ≤ p.l2Hits.foldl max 0) :
    ∃ i order, p.order n = i :: order ∧ p.load.length ≤ p.l2Hit i := by
  have hhits : p.l2Hits = (List.range n).map p.l2Hit := by
    refine List.ext_getElem (by simpa using hn) fun j hj _ => ?_
    simp only [List.getElem_map, List.getElem_range, l2Hit, List.getD_eq_getElem?_getD,
      List.getElem?_eq_getElem hj, Option.getD_some]
  rw [hhits, foldl_max_range] at hmax
  have hpos := List.length_pos_iff.mpr hne
  cases horder : p.order n with
  | nil =>
    -- every adapter is in the order, so there is none
    rw [order, if_neg hne] at horder
    have hlen := congrArg List.length horder
    rw [List.length_insertionSort, List.length_range, List.length_nil] at hlen
    rw [hlen, Finset.range_zero, Finset.sup_empty, Nat.bot_eq_zero] at hmax
    omega
  | cons i order =>
    refine ⟨i, order, rfl, hmax.trans (Finset.sup_le fun j hj => ?_)⟩
    exact (Reach.head_order horder).2 j (Finset.mem_range.mp hj)

/-- The first adapter asked counts every slot when it holds them all. -/
theorem loadLoop_eq_of_holds {i : ℕ} {order : List ℕ}
    (hdisj : (p.load.map Prod.snd).Pairwise MemoryObj.Disjoint)
    (hsound : ∀ j ∈ i :: order, (l2s j).Sound p.load) (hne : p.load ≠ [])
    (hhit : p.load.length ≤ p.l2Hit i) (hstop : (l2s i).Exhaustive p.load)
    (hholds : ∀ slot ∈ p.load, (l2s i).Holds slot) (pool : PoolAllocator) :
    ∃ r, loadLoop l2s (i :: order) { p with loaded := 0 } pool [] =
      .returned r { p with loaded := p.load.length } := by
  have hpos := List.length_pos_iff.mpr hne
  have hgo : ¬(0 = p.load.length ∨ p.l2Hit i ≤ 0) := by omega
  obtain ⟨pool₁, n, hload, hfill⟩ := hsound i List.mem_cons_self pool 0
  have hle := hfill.le
  -- a slot left over is one the adapter does not hold
  have hall : n = p.load.length := by
    refine Nat.le_antisymm (by simpa using hle) (Nat.le_of_not_lt fun hlt => ?_)
    exact hstop pool 0 pool₁ n hload _ (List.getElem?_eq_getElem hlt)
      (hholds _ (List.getElem_mem hlt))
  obtain ⟨pool', calls', total, hret, hge, hcounts⟩ := Counts.loop hdisj order
    (fun j hj => hsound j (List.mem_cons_of_mem i hj)) ((counts_start l2s p pool).load hdisj hfill)
  have htotal : total = p.load.length := Nat.le_antisymm hcounts.le (by simpa [hall] using hge)
  refine ⟨(pool', calls'), ?_⟩
  unfold loadLoop
  split_ifs with hcond
  · exact absurd hcond hgo
  · simp only [hload]
    rw [← htotal]
    exact hret

/-- `load_from_l2s` over adapters that each fill some prefix of the slots they are given : every
slot counted has the chunk of its key from the adapter that counted it, no call changes a slot
counted before, and every slot is counted when the adapters hold what they reported. -/
theorem load_from_l2s_sound {n : ℕ} (p : Prefetch) (pool : PoolAllocator)
    (hdisj : (p.load.map Prod.snd).Pairwise MemoryObj.Disjoint)
    (hn : p.load ≠ [] → p.l2Hits.length = n) (hmax : p.load.length ≤ p.l2Hits.foldl max 0)
    (hsound : ∀ i < n, (l2s i).Sound p.load) :
    ∃ pool' calls total,
      p.loadFromL2s l2s n pool = .returned (pool', calls) { p with loaded := total } ∧
      ({ p with loaded := total } : Prefetch).Counts l2s pool' calls ∧
      ((∀ i < n, (l2s i).Exhaustive p.load ∧
          ∀ j slot, j < p.l2Hit i → p.load[j]? = some slot → (l2s i).Holds slot) →
        total = p.load.length) := by
  obtain ⟨pool', calls, total, hret, -, hcounts⟩ := Counts.loop hdisj (p.order n)
    (fun i hi => hsound i (lt_of_mem_order hi)) (counts_start l2s p pool)
  refine ⟨pool', calls, total, hret, hcounts, fun hheld => ?_⟩
  by_cases hne : p.load = []
  · exact Nat.le_antisymm hcounts.le (by rw [hne]; exact Nat.zero_le total)
  obtain ⟨i, order, horder, hhit⟩ := exists_head_order hne (hn hne) hmax
  have hlt := lt_of_mem_order (horder ▸ List.mem_cons_self : i ∈ p.order n)
  obtain ⟨hstop, hholds⟩ := hheld i hlt
  obtain ⟨r, hret'⟩ := loadLoop_eq_of_holds hdisj
    (fun j hj => hsound j (lt_of_mem_order (horder ▸ hj))) hne hhit hstop (fun slot hslot => by
      obtain ⟨j, hj, rfl⟩ := List.mem_iff_getElem.mp hslot
      exact hholds j _ (hj.trans_le hhit) (List.getElem?_eq_getElem hj)) pool
  rw [horder, hret'] at hret
  cases hret
  rfl

/-- Three slots of one byte, of which adapter 0 has reported two and adapter 1 all. -/
def sampleLoad : Prefetch where
  job := ⟨"r", [⟨[1], "m", 0⟩, ⟨[2], "m", 0⟩, ⟨[3], "m", 0⟩], some 1⟩
  chunkNbytes := 1
  l1Hits := 0
  l2Hits := [2, 3]
  load := [(⟨[1], "m", 0⟩, ⟨0, 1⟩), (⟨[2], "m", 0⟩, ⟨1, 1⟩), (⟨[3], "m", 0⟩, ⟨2, 1⟩)]
  loaded := 0

/-- An adapter with the first `n` of the three chunks. -/
def sampleAdapter (n : ℕ) : MockAdapter :=
  ⟨⟨[(⟨[1], "m", 0⟩, [7]), (⟨[2], "m", 0⟩, [8]), (⟨[3], "m", 0⟩, [9])].take n,
    (List.Sublist.map _ (List.take_sublist _ _)).nodup (by decide)⟩⟩

def sampleLoaders (i : ℕ) : Loader := (sampleAdapter (i + 2)).loader

theorem disjoint_sampleLoad : (sampleLoad.load.map Prod.snd).Pairwise MemoryObj.Disjoint := by
  simp [sampleLoad, MemoryObj.Disjoint]

theorem sound_sampleAdapter (n : ℕ) : (sampleAdapter n).loader.Sound sampleLoad.load ∧
    (sampleAdapter n).loader.Exhaustive sampleLoad.load := by
  refine MockAdapter.sound disjoint_sampleLoad fun slot hslot data hget => ?_
  have hbytes : ∀ x ∈ (sampleAdapter 3).chunks.items, x.2.length = 1 := by decide
  have hsize : ∀ x ∈ sampleLoad.load, x.2.nbytes = 1 := by decide
  rw [hsize slot hslot]
  exact hbytes _ (List.mem_of_mem_take (OrderedDict.get?_eq_some_iff.mp hget))

theorem load_from_l2s_sound_sample : ∃ pool' calls,
    sampleLoad.loadFromL2s sampleLoaders 2 (.new 3 fun _ => 0) =
      .returned (pool', calls) { sampleLoad with loaded := 3 } ∧
    ({ sampleLoad with loaded := 3 } : Prefetch).Counts sampleLoaders pool' calls := by
  have hsound : ∀ i < 2, (sampleLoaders i).Sound sampleLoad.load :=
    fun i _ => (sound_sampleAdapter (i + 2)).1
  have hheld : ∀ i < 2, ∀ slot ∈ sampleLoad.load.take (sampleLoad.l2Hit i),
      ((sampleLoaders i).chunks slot.1).map List.length = some slot.2.nbytes := by decide
  obtain ⟨pool', calls, total, hret, hcounts, hall⟩ := load_from_l2s_sound sampleLoad
    (.new 3 fun _ => 0) disjoint_sampleLoad (fun _ => rfl) (by decide) hsound
  obtain rfl : total = 3 := hall fun i hi => by
    refine ⟨(sound_sampleAdapter (i + 2)).2, fun j slot hj hslot => ?_⟩
    refine Option.map_eq_some_iff.mp (hheld i hi slot (List.mem_of_getElem? (i := j) ?_))
    rw [List.getElem?_take_of_lt hj, hslot]
  exact ⟨pool', calls, hret, hcounts⟩

/-- The adapter asked first has lost two chunks, and the next one fills one of them. -/
example : (match sampleLoad.loadFromL2s (fun i => (sampleAdapter (2 - i)).loader) 2
      (.new 3 fun _ => 0) with
    | .returned (_, calls) p => (p.loaded, calls.map fun c => (c.adapter, c.start, c.count))
    | .raised _ _ => (0, [])) = (2, [(1, 0, 1), (0, 1, 1)]) := by decide

end Prefetch

/-! ## The loop in the system -/

/-- A step of the prefetch worker or of an adapter. -/
def Label.prefetches : Label → Bool
  | .worker | .l2 _ _ => true
  | _ => false

/-- The slots counted have the same bytes in the pool of the system. -/
def Prefetch.Agrees (p : Prefetch) (pool : PoolAllocator) (s : System) : Prop :=
  ∀ j key obj, j < p.loaded → p.load[j]? = some (key, obj) →
    s.server.l1.bytes obj = pool.bytes obj

namespace System

variable {blake3 : Bytes → Bytes} {s : System} {p p' : Prefetch} {order : List ℕ} {i : ℕ}
  {l2s : ℕ → Loader} {pool pool' : PoolAllocator} {calls calls' : List LoadTask}

/-- The adapter fills `k` slots, one after the other, with what they have in `pool'`. -/
theorem run_fill (hdisj : (p.load.map Prod.snd).Pairwise MemoryObj.Disjoint)
    (hw : s.worker = .loading p order i 0 none) (ht : tasksAt s.l2s i = [.load])
    (pool' : PoolAllocator) : ∀ k, p.loaded + k ≤ p.load.length →
      ∃ ls s', Run (step blake3) (fun _ l => l.prefetches = true) s ls s' ∧
        s'.worker = .loading p order i k none ∧ s'.l2s = s.l2s ∧
        ∀ j key obj, j < p.loaded + k → p.load[j]? = some (key, obj) →
          s'.server.l1.bytes obj =
            if j < p.loaded then s.server.l1.bytes obj else pool'.bytes obj
  | 0, _ => ⟨[], s, .refl, hw, rfl, fun j _ _ hj _ => (if_pos hj).symm⟩
  | k + 1, hle => by
    obtain ⟨ls, t, hrun, hwt, hl2s, hbytes⟩ := run_fill hdisj hw ht pool' k (by omega)
    have hlt : p.loaded + k < p.load.length := by omega
    rcases hslot : p.load[p.loaded + k] with ⟨key, obj⟩
    have hget : p.load[p.loaded + k]? = some (key, obj) := by
      rw [List.getElem?_eq_getElem hlt, hslot]
    have hstep : t.step blake3 (.l2 i (.fill (pool'.bytes obj) true)) = some { t with
        server := t.server.fill key obj (pool'.bytes obj)
        worker := .loading p order i (k + 1) none } := by
      rw [Reach.step_l2_of_tasksAt (hl2s ▸ ht)]
      simp only [l2Step, hwt, if_true, hget, PoolAllocator.length_bytes]
    refine ⟨_, _, .snoc hrun rfl hstep, rfl, hl2s, fun j key' obj' hj hslot' => ?_⟩
    rcases Nat.lt_or_ge j (p.loaded + k) with hjk | hjk
    · -- a slot filled before, or counted before
      rw [← hbytes j key' obj' hjk hslot']
      exact t.server.l1.allocator.bytes_copy_of_disjoint (PoolAllocator.length_bytes _ _)
        (disjoint_of_slots hdisj hjk hslot' hget).symm
    · obtain rfl : j = p.loaded + k := by omega
      rw [hget] at hslot'
      cases hslot'
      rw [if_neg (by omega)]
      exact t.server.l1.allocator.bytes_copy_self (PoolAllocator.length_bytes _ _)

/-- One round of the loop : the next adapter is asked and counts what it fills. -/
theorem run_load (hdisj : (p.load.map Prod.snd).Pairwise MemoryObj.Disjoint)
    (hw : s.worker = .load p (i :: order)) (hi : i < s.l2s.length) (ht : tasksAt s.l2s i = [])
    (hbound : p.loaded ≤ p.load.length)
    (hgo : ¬(p.loaded = p.load.length ∨ p.l2Hit i ≤ p.loaded)) {chunks : ChunkKey → Option Bytes}
    {n : ℕ} (hfill : Filled chunks (p.load.drop p.loaded) pool pool' n) (hp : p.Agrees pool s) :
    ∃ ls s', Run (step blake3) (fun _ l => l.prefetches = true) s ls s' ∧
      s'.worker = .load { p with loaded := p.loaded + n } order ∧
      s'.l2s.length = s.l2s.length ∧ (∀ j, tasksAt s'.l2s j = tasksAt s.l2s j) ∧
      ({ p with loaded := p.loaded + n } : Prefetch).Agrees pool' s' := by
  have hsubmit := Reach.tasksAt_submit_of_lt hi .load
  let t : System := { s with l2s := submit s.l2s i .load, worker := .loading p order i 0 none }
  have hask : s.step blake3 .worker = some t := by
    simp only [step, hw, Worker.step, if_neg hgo, Option.map_some, t]
  have hti : tasksAt t.l2s i = [.load] := by
    rw [hsubmit i, ht, if_pos rfl, List.nil_append]
  have hle := hfill.le
  rw [List.length_drop] at hle
  obtain ⟨ls, u, hrun, hwu, hl2s, hbytes⟩ := run_fill hdisj (s := t) rfl hti pool' n (by omega)
  have htu : tasksAt u.l2s i = [.load] := hl2s ▸ hti
  have hdone : u.step blake3 (.l2 i .loaded) =
      some { u.popTask i with worker := .loading p order i n (some (.ok n)) } := by
    rw [Reach.step_l2_of_tasksAt htu]
    simp only [l2Step, hwu, if_true]
  have hcount : ({ u.popTask i with worker := .loading p order i n (some (.ok n)) } : System).step
      blake3 .worker = some { u.popTask i with
        worker := .load { p with loaded := p.loaded + n } order } := rfl
  refine ⟨_, _, .cons rfl hask (.snoc (.snoc hrun rfl hdone) rfl hcount), rfl, ?_, fun j => ?_,
    fun j key obj hj hslot => ?_⟩
  · simp [popTask, hl2s, t, submit]
  · rw [show tasksAt _ j = _ from tasksAt_popTask u i j, hl2s, hsubmit j]
    by_cases hij : i = j
    · subst hij
      rw [if_pos rfl, if_pos rfl, ht]
      rfl
    · rw [if_neg hij, if_neg hij, List.append_nil]
  · refine (hbytes j key obj hj hslot).trans ?_
    split_ifs with hjk
    · exact (hp j key obj hjk hslot).trans (hfill.kept hdisj hjk hslot).symm
    · rfl

/-- What the loop returns, the worker of the system reaches, with the same bytes in the slots
counted. -/
theorem run_of_loadLoop : ∀ (order : List ℕ) {p : Prefetch} {pool : PoolAllocator}
    {calls : List LoadTask} {s : System}, (p.load.map Prod.snd).Pairwise MemoryObj.Disjoint →
    (∀ i ∈ order, i < s.l2s.length ∧ tasksAt s.l2s i = [] ∧ (l2s i).Sound p.load) →
    s.worker = .load p order → p.loaded ≤ p.load.length → p.Agrees pool s →
    p.loadLoop l2s order pool calls = .returned (pool', calls') p' →
    ∃ ls s', Run (step blake3) (fun _ l => l.prefetches = true) s ls s' ∧
      s'.worker = .finishWrite p' ∧ p'.Agrees pool' s'
  | [], p, pool, calls, s, _, _, hw, _, hp, hret => by
    have hend : s.step blake3 .worker = some { s with worker := .finishWrite p } := by
      simp only [step, hw, Worker.step, Option.map_some]
    cases hret
    exact ⟨_, _, .snoc .refl rfl hend, rfl, hp⟩
  | i :: order, p, pool, calls, s, hdisj, horder, hw, hbound, hp, hret => by
    unfold Prefetch.loadLoop at hret
    split_ifs at hret with hstop
    · have hend : s.step blake3 .worker = some { s with worker := .finishWrite p } := by
        simp only [step, hw, Worker.step, if_pos hstop, Option.map_some]
      cases hret
      exact ⟨_, _, .snoc .refl rfl hend, rfl, hp⟩
    · obtain ⟨hi, ht, hsound⟩ := horder i List.mem_cons_self
      obtain ⟨pool₁, n, hload, hfill⟩ := hsound pool p.loaded
      simp only [hload] at hret
      obtain ⟨ls, t, hrun, hwt, hlen, htasks, hpt⟩ :=
        run_load hdisj hw hi ht hbound hstop hfill hp
      have hle := hfill.le
      rw [List.length_drop] at hle
      have hrest : ∀ j ∈ order,
          j < t.l2s.length ∧ tasksAt t.l2s j = [] ∧ (l2s j).Sound p.load := by
        intro j hj
        obtain ⟨hj', htj, hsoundj⟩ := horder j (List.mem_cons_of_mem i hj)
        exact ⟨hlen ▸ hj', (htasks j).trans htj, hsoundj⟩
      obtain ⟨ls', s', hrun', hend, hp'⟩ := run_of_loadLoop order
        (p := { p with loaded := p.loaded + n }) hdisj hrest hwt (by dsimp only; omega) hpt hret
      exact ⟨_, s', hrun.trans hrun', hend, hp'⟩

end System

end MiniLlmcache
