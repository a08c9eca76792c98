import MiniLlmcache.Holds

/-!
# A reported hit is there

What `prefetch` publishes for a live session (`published_hit_sound`) : the session then
holds exactly the first `l1 + l2` keys of its LOOKUP, in order, each resident, readable and
counted; the slots reserved past them are gone and their memory is free; and the tokens
that `query` answers are whole chunks, of which every rank's chunk is held.
-/

namespace MiniLlmcache

open L1Manager

variable {blake3 : Bytes → Bytes}

theorem Handler.isTemporary_of_mem_slots {hd : Handler} {x : Slot} (hx : x ∈ hd.slots) :
    x.isTemporary = false := by
  cases hd with
  | storeCopy filled todo =>
    simp only [slots, Multiset.mem_add, Multiset.mem_coe, List.mem_map] at hx
    rcases hx with ⟨item, -, rfl⟩ | ⟨item, -, rfl⟩ <;> rfl
  | _ => cases hx

namespace CacheServer

/-- The answer of `query` in chunks : what is below it is in the first `hits` keys. -/
theorem query_int {srv : CacheServer} {requestId : String} {worldSize l1 l2 n : ℕ}
    (hhits : srv.hits.get? requestId = some (some (l1, l2)))
    (hq : srv.query ⟨requestId, worldSize⟩ = .int n) :
    n = (l1 + l2) / worldSize * srv.chunkSize := by
  simp only [query, hhits, Option.join_some] at hq
  split_ifs at hq
  cases hq
  rfl

theorem index_lt {hits worldSize chunkSize j r : ℕ}
    (hj : j < hits / worldSize * chunkSize / chunkSize) (hr : r < worldSize) :
    j * worldSize + r < hits := by
  have hj' : j < hits / worldSize := by
    rcases Nat.eq_zero_or_pos chunkSize with rfl | hc
    · simp at hj
    · rwa [Nat.mul_div_cancel _ hc] at hj
  have hle : (j + 1) * worldSize ≤ hits / worldSize * worldSize := Nat.mul_le_mul_right _ hj'
  have hmul := Nat.div_mul_le_self hits worldSize
  rw [Nat.succ_mul] at hle
  omega

end CacheServer

namespace System

variable {s s' : System} {lost : Multiset ChunkKey}

/-- Only the prefetcher has temporary slots. -/
theorem Inv.temporary_held (h : s.Inv blake3 lost) (hw : s.worker.slots = 0) {k : ChunkKey}
    {e : Entry} (he : s.server.l1.entries.get? k = some e) (ht : e.isTemporary = true) :
    e.writeLocked = false ∧ k ∈ s.holds + lost := by
  rcases h.ledger.temporary k e he ht with hr | ⟨x, hx, -, hxt⟩
  · exact hr
  · rw [slots, hw, add_zero, OrderedDict.mem_total] at hx
    obtain ⟨p, -, hx⟩ := hx
    rw [Handler.isTemporary_of_mem_slots hx] at hxt
    cases hxt

/-- The keys of the reserved slots follow the L1 hits; the clean-up step removes those that
were not filled, and frees their slices. -/
theorem Inv.cleanup (h : s.Inv blake3 lost) {p : Prefetch} (hw : s.worker = .cleanup p) :
    p.l1Keys ++ p.load.map Prod.fst <+: p.job.keys ∧ ∃ s', s.step blake3 .worker = some s' ∧
      s'.worker = .resolve p.job p.l1Keys p.loadedKeys ∧
      ∀ q ∈ p.load.drop p.loaded, s'.server.l1.entries.get? q.1 = none ∧
        q.2.offset ∈ s'.server.l1.allocator.freeList q.2.nbytes := by
  have hstep : s.step blake3 .worker = some { s with
      server := { s.server with l1 := (s.server.l1.delete p.surplusKeys true).2 }
      worker := .resolve p.job p.l1Keys p.loadedKeys } := by
    simp only [step, hw, Worker.step, Option.map_some]
  have hwf := h.worker
  rw [hw] at hwf
  refine ⟨Worker.prefix_jobKeys hwf.2, _, hstep, rfl, ?_⟩
  intro q hq
  have hl := h.ledger
  have hslots : s.slots = ↑(freshSlots true (p.load.drop p.loaded)) +
      (s.handlers.total fun _ p => p.2.slots) := by
    rw [slots, hw, Worker.slots, loadSlots_zero, add_comm]
  rw [hslots] at hl
  have hfree := (inv_deleteSlots hl).2.2 ⟨q.1, q.2, true, false⟩ (List.mem_map.mpr ⟨q, hq, rfl⟩)
  rw [map_key_freshSlots] at hfree
  exact ⟨get?_delete_force _ (List.mem_map.mpr ⟨q, hq, rfl⟩), hfree⟩

/-- Publishing makes the session hold the keys found, in order. -/
theorem Inv.publish (h : s.Inv blake3 lost) {job : Job} {l1Keys loadedKeys : List ChunkKey}
    (hw : s.worker = .resolve job l1Keys loadedKeys)
    (hlive : s.server.hits.contains job.requestId = true) :
    ∃ s', s.step blake3 .worker = some s' ∧ s'.worker = .idle ∧
      s'.server.chunkSize = s.server.chunkSize ∧
      s'.server.hits.get? job.requestId = some (some (l1Keys.length, loadedKeys.length)) ∧
      s'.server.heldKeys job.requestId = job.keys.take (l1Keys.length + loadedKeys.length) := by
  have hstep : s.step blake3 .worker = some { s with
      server := s.server.publish job.requestId l1Keys loadedKeys
      worker := .idle } := by
    simp only [step, hw, Worker.step, hlive, if_true, Option.map_some]
  have hwf := h.worker
  rw [hw] at hwf
  refine ⟨_, hstep, rfl, rfl, OrderedDict.get?_set_self _ _ _, ?_⟩
  have hnd : (l1Keys ++ loadedKeys).Nodup := hwf.1.sublist hwf.2.sublist
  simp only [CacheServer.heldKeys, CacheServer.publish, OrderedDict.get?_set_self,
    Option.elim_some, OrderedDict.keys_fromKeys hnd]
  rw [← List.length_append]
  exact List.prefix_iff_eq_take.mp hwf.2

/-- Soundness of a reported hit, in every reachable state in which the worker is about to
clean up, and in every one in which it is about to publish for a live session. -/
theorem published_hit_sound (h : s.Reachable blake3) :
    (∀ p, s.worker = .cleanup p → p.l1Keys ++ p.load.map Prod.fst <+: p.job.keys ∧
      ∃ s', s.step blake3 .worker = some s' ∧
      s'.worker = .resolve p.job p.l1Keys p.loadedKeys ∧
      ∀ q ∈ p.load.drop p.loaded, s'.server.l1.entries.get? q.1 = none ∧
        q.2.offset ∈ s'.server.l1.allocator.freeList q.2.nbytes) ∧
    ∀ job l1Keys loadedKeys, s.worker = .resolve job l1Keys loadedKeys →
      s.server.hits.contains job.requestId = true →
      ∃ s', s.step blake3 .worker = some s' ∧
        s'.server.hits.get? job.requestId = some (some (l1Keys.length, loadedKeys.length)) ∧
        s'.server.heldKeys job.requestId = job.keys.take (l1Keys.length + loadedKeys.length) ∧
        (∀ k ∈ s'.server.heldKeys job.requestId, ∃ e, s'.server.l1.entries.get? k = some e ∧
          e.writeLocked = false ∧ 1 ≤ e.readCount) ∧
        (∀ k e, s'.server.l1.entries.get? k = some e → e.isTemporary = true →
          e.writeLocked = false) ∧
        ∀ hashes model worldSize n,
          job.keys = CacheServer.keysFor hashes model (List.range worldSize) →
          s'.server.query ⟨job.requestId, worldSize⟩ = .int n →
          s'.server.chunkSize ∣ n ∧ ∀ j < n / s'.server.chunkSize, ∀ r < worldSize,
            ∃ hash, hashes[j]? = some hash ∧
              ⟨hash, model, r⟩ ∈ s'.server.heldKeys job.requestId := by
  obtain ⟨lost, hinv⟩ := h.inv
  refine ⟨fun p hw => hinv.cleanup hw, fun job l1Keys loadedKeys hw hlive => ?_⟩
  obtain ⟨s', hs, hidle, hcs, hhits, hheld⟩ := hinv.publish hw hlive
  have hd : s.Distinct blake3 .worker := trivial
  obtain ⟨hinv', -, -⟩ := inv_step hinv hd hs
  refine ⟨s', hs, hhits, hheld, ?_, ?_, ?_⟩
  · intro k hk
    obtain ⟨e, he, hr⟩ := hinv'.entry_of_held hk
    refine ⟨e, he, hr, ?_⟩
    have hle := hinv'.holders_le he
    have hcount := Multiset.one_le_count_iff_mem.mpr (CacheServer.mem_sessions hk)
    rw [CacheServer.count_sessions] at hcount
    omega
  · intro k e he ht
    exact (hinv'.temporary_held (by rw [hidle]; rfl) he ht).1
  · intro hashes model worldSize n hkeys hq
    obtain rfl := CacheServer.query_int hhits hq
    refine ⟨Dvd.intro_left _ rfl, fun j hj r hr => ?_⟩
    have hlt := CacheServer.index_lt hj hr
    have hwf := hinv.worker
    rw [hw] at hwf
    have hlen : l1Keys.length + loadedKeys.length ≤ job.keys.length := by
      rw [← List.length_append]
      exact hwf.2.length_le
    have hget := CacheServer.getElem?_keysFor model hr hashes j
    rw [← hkeys, List.getElem?_eq_getElem (hlt.trans_le hlen)] at hget
    obtain ⟨hash, hhash, hkey⟩ := Option.map_eq_some_iff.mp hget.symm
    refine ⟨hash, hhash, ?_⟩
    rw [hheld, hkey]
    exact List.mem_take_iff_getElem.mpr ⟨j * worldSize + r, by omega, rfl⟩

/-- Request `b` gets the chunk that comes back from L2. -/
theorem published_hit_sound_sample : ∃ s s', sample distinct 2 sampleReload.dropLast = some s ∧
    s.step sampleDigest .worker = some s' ∧ s'.server.heldKeys "b" = [sampleKey 1] ∧
    ∃ e, s'.server.l1.entries.get? (sampleKey 1) = some e ∧ e.writeLocked = false ∧
      1 ≤ e.readCount := by
  have hrun : (sample distinct 2 sampleReload.dropLast).map
      (fun s => (s.worker, s.server.hits.contains "b")) =
      some (.resolve ⟨"b", [sampleKey 1], some 2⟩ [] [sampleKey 1], true) := by decide
  obtain ⟨s, hs, he⟩ := Option.map_eq_some_iff.mp hrun
  obtain ⟨hw, hlive⟩ := Prod.mk.inj he
  obtain ⟨s', hstep, -, hheld, hres, -⟩ :=
    (published_hit_sound (reachable_of_sample hs)).2 _ _ _ hw hlive
  refine ⟨s, s', hs, hstep, hheld, hres _ ?_⟩
  rw [hheld]
  exact List.mem_cons_self

end System

end MiniLlmcache
