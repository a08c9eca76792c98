import MiniLlmcache.Background

/-!
# Held chunks are pinned

What `held` records is in L1. `held_chunks_pinned` : in every reachable state a key held by
a session has a readable entry that counts every session holding it; every `finish_read`
any thread is about to make succeeds and leaves no count below zero; and no step removes,
moves or locks the entry of a held key.
-/

namespace MiniLlmcache

open L1Manager

namespace CacheServer

/-- The number of sessions whose held set contains `key`. -/
def holders (srv : CacheServer) (key : ChunkKey) : ℕ :=
  srv.held.items.countP fun p => p.2.contains key

theorem count_keys (d : OrderedDict ChunkKey Unit) (key : ChunkKey) :
    d.keys.count key = if d.contains key then 1 else 0 := by
  split_ifs with h
  · exact List.count_eq_one_of_mem d.nodup_keys (OrderedDict.contains_iff.mp h)
  · exact List.count_eq_zero_of_not_mem fun hm => h (OrderedDict.contains_iff.mpr hm)

theorem count_sum_keys (key : ChunkKey) : ∀ items : List (String × OrderedDict ChunkKey Unit),
    ((items.map fun p => (p.2.keys : Multiset ChunkKey)).sum).count key =
      items.countP fun p => p.2.contains key
  | [] => rfl
  | p :: items => by
    rw [List.map_cons, List.sum_cons, Multiset.count_add, count_sum_keys key items,
      Multiset.coe_count, count_keys, List.countP_cons, Nat.add_comm]

/-- Each session counts once in the holds of all sessions. -/
theorem count_sessions (srv : CacheServer) (key : ChunkKey) :
    srv.sessions.count key = srv.holders key :=
  count_sum_keys key srv.held.items

theorem mem_sessions {srv : CacheServer} {requestId : String} {key : ChunkKey}
    (h : key ∈ srv.heldKeys requestId) : key ∈ srv.sessions := by
  rw [srv.sessions_eq requestId]
  exact Multiset.mem_add.mpr (Or.inl (Multiset.mem_coe.mpr h))

end CacheServer

/-! ## Steps that change `held` leave L1 alone -/

variable {blake3 : Bytes → Bytes}

/-- The section of `release` only changes `held`. -/
theorem CacheServer.eq_of_releaseHeld {srv srv' : CacheServer} {requestId : String}
    {keys : Option (List ChunkKey)} :
    (∀ released, srv.releaseHeld requestId keys = .returned srv' released →
      srv' = { srv with held := srv'.held }) ∧
    ∀ e, srv.releaseHeld requestId keys = .raised srv' e →
      srv' = { srv with held := srv'.held } := by
  unfold releaseHeld
  constructor
  · intro released h
    split at h
    · cases h
      rfl
    · dsimp only at h
      split at h <;> cases h
      rfl
  · intro e h
    split at h
    · cases h
    · dsimp only at h
      split at h <;> cases h
      rfl

theorem Handler.held_or_l1 {srv srv' : CacheServer} {hd hd' : Handler}
    (hs : hd.Does blake3 srv srv' hd') : srv'.held = srv.held ∨ srv'.l1 = srv.l1 := by
  cases hs with
  | dispatch m =>
    refine Or.inr ?_
    cases m with
    | retrieve p | store p =>
      simp only [dispatch]
      split <;> rfl
    | _ => rfl
  | release h =>
    rw [CacheServer.eq_of_releaseHeld.1 _ h]
    exact Or.inr rfl
  | releaseFail h =>
    rw [CacheServer.eq_of_releaseHeld.2 _ h]
    exact Or.inr rfl
  | pop => exact Or.inr rfl
  | _ => exact Or.inl rfl

theorem Worker.held_or_l1 {srv srv' : CacheServer} {l2s l2s' : List Adapter} {w w' : Worker}
    (hs : w.Does srv l2s srv' l2s' w') : srv'.held = srv.held ∨ srv'.l1 = srv.l1 := by
  cases hs with
  | publish => exact Or.inr rfl
  | _ => exact Or.inl rfl

/-- Write-back knows nothing of sessions. -/
theorem Writeback.sessions_step {srv srv' : CacheServer} {l2s l2s' : List Adapter}
    {w w' : Writeback} (hs : w.Does srv l2s srv' l2s' w') :
    srv'.held = srv.held ∧ srv'.hits = srv.hits ∧ srv'.jobs = srv.jobs := by
  cases hs <;> exact ⟨rfl, rfl, rfl⟩

namespace System

variable {s s' : System} {lost : Multiset ChunkKey}

theorem held_or_l1 {l : Label} (hs : s.step blake3 l = some s') :
    s'.server.held = s.server.held ∨ s'.server.l1 = s.server.l1 := by
  cases l with
  | recv t m =>
    obtain ⟨-, rfl⟩ := step_recv hs
    exact Or.inr rfl
  | handler t =>
    obtain ⟨m, hd, srv', hd', -, hdoes, rfl⟩ := step_handler hs
    exact Handler.held_or_l1 hdoes
  | worker =>
    obtain ⟨srv', l2s', w', hdoes, rfl⟩ := step_worker hs
    exact Worker.held_or_l1 hdoes
  | writeback =>
    obtain ⟨srv', l2s', w', hdoes, rfl⟩ := step_writeback hs
    exact Or.inl (Writeback.sessions_step hdoes).1
  | evictor =>
    cases hs
    rcases hev : s.evictor with _ | _ | _ | _ <;> exact Or.inl rfl
  | l2 i act =>
    cases l2_does hs with
    | found | lookupFail => exact Or.inr (by rw [server_setLookup]; rfl)
    | fill | scribble => exact Or.inl rfl
    | _ => exact Or.inr rfl

theorem Inv.entry_of_held (h : s.Inv blake3 lost) {r : String} {k : ChunkKey}
    (hk : k ∈ s.server.heldKeys r) :
    ∃ e, s.server.l1.entries.get? k = some e ∧ e.writeLocked = false := by
  refine h.ledger.held k ?_
  simp only [holds, Multiset.mem_add]
  exact Or.inl (Or.inl (Or.inl (Or.inl (CacheServer.mem_sessions hk))))

theorem Inv.holders_le (h : s.Inv blake3 lost) {k : ChunkKey} {e : Entry}
    (he : s.server.l1.entries.get? k = some e) : (s.server.holders k : ℤ) ≤ e.readCount := by
  have hcount := h.ledger.count k e he
  have hle : s.server.sessions.count k ≤ (s.holds + lost).count k := by
    refine Multiset.count_le_of_le k ?_
    simp only [holds, add_assoc]
    exact Multiset.le_add_right _ _
  rw [s.server.count_sessions k] at hle
  omega

/-- The keys of the `finish_read` a step is about to make. -/
def finishing (s : System) : Label → Option (List ChunkKey)
  | .handler t =>
    match s.handlers.get? t with
    | some (_, .finishRead _ released _ _) => some released
    | _ => none
  | .worker =>
    match s.worker with
    | .finishRead _ keys => some keys
    | _ => none
  | .writeback =>
    match s.writeback with
    | .finishRead keys => some keys
    | _ => none
  | _ => none

/-- The thread that is about to drop holds has them. -/
theorem finishing_le {l : Label} {keys : List ChunkKey} (h : s.finishing l = some keys) :
    (↑keys : Multiset ChunkKey) ≤ s.holds := by
  cases l with
  | handler t =>
    simp only [finishing] at h
    split at h <;> cases h
    rename_i hget
    rw [holds, OrderedDict.total_eq _ _ t, OrderedDict.at?, hget, Option.elim_some]
    refine le_trans ?_ (Multiset.le_add_right _ _)
    refine le_trans ?_ (Multiset.le_add_right _ _)
    refine le_trans ?_ (Multiset.le_add_left _ _)
    exact Multiset.le_add_right _ _
  | worker =>
    simp only [finishing] at h
    split at h <;> cases h
    rename_i hw
    rw [holds, hw]
    refine le_trans ?_ (Multiset.le_add_right _ _)
    exact Multiset.le_add_left _ _
  | writeback =>
    simp only [finishing] at h
    split at h <;> cases h
    rename_i hw
    rw [holds, hw]
    exact Multiset.le_add_left _ _
  | recv | evictor | l2 => cases h

theorem Inv.finishRead_returned (h : s.Inv blake3 lost) {l : Label} {keys : List ChunkKey}
    (hl : s.finishing l = some keys) :
    ∃ l1, s.server.l1.finishRead keys = .returned l1 () ∧
      ∀ k e, l1.entries.get? k = some e → 0 ≤ e.readCount := by
  obtain ⟨rest, hrest⟩ := Multiset.le_iff_exists_add.mp (finishing_le hl)
  have hledger := h.ledger
  rw [hrest, add_assoc] at hledger
  obtain ⟨l1, hl1, hinv, -⟩ := inv_finishRead hledger
  refine ⟨l1, hl1, fun k e he => ?_⟩
  rw [hinv.count k e he]
  exact Int.natCast_nonneg _

/-- Held chunks are pinned : a held key has a readable entry whose count covers every
session that holds it, no `finish_read` fails or counts below zero, and no step touches
the entry of a held key. -/
theorem held_chunks_pinned (h : s.Reachable blake3) :
    (∀ r k, k ∈ s.server.heldKeys r → ∃ e, s.server.l1.entries.get? k = some e ∧
      e.writeLocked = false ∧ (s.server.holders k : ℤ) ≤ e.readCount) ∧
    (∀ l keys, s.finishing l = some keys → ∃ l1, s.server.l1.finishRead keys = .returned l1 () ∧
      ∀ k e, l1.entries.get? k = some e → 0 ≤ e.readCount) ∧
    ∀ l s', s.Distinct blake3 l → s.step blake3 l = some s' →
      ∀ r k, k ∈ s.server.heldKeys r → ∃ e e', s.server.l1.entries.get? k = some e ∧
        s'.server.l1.entries.get? k = some e' ∧ e'.obj = e.obj ∧ e'.writeLocked = false := by
  obtain ⟨lost, hinv⟩ := h.inv
  refine ⟨?_, fun l keys hl => hinv.finishRead_returned hl, ?_⟩
  · intro r k hk
    obtain ⟨e, he, hr⟩ := hinv.entry_of_held hk
    exact ⟨e, he, hr, hinv.holders_le he⟩
  · intro l s' hd hs r k hk
    obtain ⟨e, he, hr⟩ := hinv.entry_of_held hk
    obtain ⟨hinv', hev, -⟩ := inv_step hinv hd hs
    -- the entry is still there : its session still holds it, or L1 was not touched
    obtain ⟨e', he'⟩ : ∃ e', s'.server.l1.entries.get? k = some e' := by
      rcases held_or_l1 hs with hheld | hl1
      · have hk' : k ∈ s'.server.heldKeys r := by
          rwa [CacheServer.heldKeys, hheld]
        obtain ⟨e', he', -⟩ := hinv'.entry_of_held hk'
        exact ⟨e', he'⟩
      · exact ⟨e, by rw [hl1, he]⟩
    obtain ⟨hobj, hread⟩ := hev.entry k e e' he he'
    exact ⟨e, e', he, he', hobj, hread hr⟩

/-- Request `b` holds the chunk that request `a` stored. -/
theorem held_chunks_pinned_sample : ∃ s, sample distinct 4 sampleLookup = some s ∧
    s.server.heldKeys "b" = [sampleKey 1] ∧
    ∃ e, s.server.l1.entries.get? (sampleKey 1) = some e ∧ e.writeLocked = false ∧
      (s.server.holders (sampleKey 1) : ℤ) ≤ e.readCount := by
  have hkeys : (sample distinct 4 sampleLookup).map (fun s => s.server.heldKeys "b") =
      some [sampleKey 1] := by decide
  obtain ⟨s, hs, hheld⟩ := Option.map_eq_some_iff.mp hkeys
  refine ⟨s, hs, hheld, (held_chunks_pinned (reachable_of_sample hs)).1 "b" _ ?_⟩
  rw [hheld]
  exact List.mem_cons_self

end System

end MiniLlmcache
