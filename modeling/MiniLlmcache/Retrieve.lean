import MiniLlmcache.Holds

/-!
# What a RETRIEVE sends

`read` hands out views on pool slices, and the handler sends them later. It checks neither
the write lock nor that its request holds the keys, and an END_SESSION of the same request
may drop the holds in between : then the entry can be evicted and its slice handed to
another key before the send (`foreign_bytes_sent`).

`sent_bytes_written` : as long as every key is readable at the read and stays in L1 until
the views are sent, each key's frame is a complete blob of that key, read from the slice
of its readable entry.
-/

namespace MiniLlmcache

open L1Manager

variable {blake3 : Bytes → Bytes}

/-! ## Views -/

/-- The views a handler has still to send, with their keys. -/
def Handler.views : Handler → List (ChunkKey × MemoryObj)
  | retrieveSend _ keys objs => keys.zip objs
  | _ => []

/-- Views come from `read`. -/
theorem Handler.read_of_does {srv srv' : CacheServer} {hd : Handler} {r : String}
    {keys : List ChunkKey} {objs : List MemoryObj}
    (hs : hd.Does blake3 srv srv' (.retrieveSend r keys objs)) :
    ∃ ws, hd = .retrieveRead r keys ws ∧ srv' = srv ∧ srv.l1.read keys = .ok objs := by
  generalize he : Handler.retrieveSend r keys objs = hd' at hs
  cases hs with
  | @read r' keys' ws objs' h =>
    cases he
    exact ⟨ws, rfl, rfl, h⟩
  | dispatch m =>
    cases m with
    | retrieve p | store p =>
      simp only [Handler.dispatch] at he
      split at he <;> cases he
    | _ => cases he
  | finishRead => split_ifs at he
  | _ => cases he

theorem Handler.exists_of_mem_views {hd : Handler} {v : ChunkKey × MemoryObj}
    (hv : v ∈ hd.views) : ∃ r keys objs, hd = .retrieveSend r keys objs := by
  cases hd with
  | retrieveSend r keys objs => exact ⟨r, keys, objs, rfl⟩
  | _ => cases hv

/-- `read` returns the slices of the entries, key by key. -/
theorem read_ok {l1 : L1Manager} : ∀ {keys : List ChunkKey} {objs : List MemoryObj},
    l1.read keys = .ok objs → keys.length = objs.length ∧
      ∀ v ∈ keys.zip objs, ∃ e, l1.entries.get? v.1 = some e ∧ e.obj = v.2
  | [], objs, h => by
    cases h
    exact ⟨rfl, nofun⟩
  | key :: keys, objs, h => by
    rw [L1Manager.read] at h
    rcases he : l1.entries.get? key with _ | e
    · rw [he] at h
      cases h
    · rw [he] at h
      rcases hr : l1.read keys with _ | rest
      · rw [hr] at h
        cases h
      · rw [hr] at h
        cases h
        obtain ⟨hlen, hrest⟩ := read_ok hr
        refine ⟨congrArg (· + 1) hlen, fun v hv => ?_⟩
        rcases List.mem_cons.mp hv with rfl | hv
        · exact ⟨e, he, rfl⟩
        · exact hrest v hv

theorem read_of_resident {l1 : L1Manager} : ∀ {keys : List ChunkKey},
    (∀ k ∈ keys, ∃ e, l1.entries.get? k = some e) → ∃ objs, l1.read keys = .ok objs
  | [], _ => ⟨[], rfl⟩
  | key :: keys, h => by
    obtain ⟨e, he⟩ := h key List.mem_cons_self
    obtain ⟨objs, hobjs⟩ := read_of_resident fun k hk => h k (List.mem_cons_of_mem key hk)
    refine ⟨e.obj :: objs, ?_⟩
    rw [L1Manager.read, he, hobjs]
    rfl

namespace System

variable {s s' : System}

/-- What a step puts on the wire for each key. -/
def sends (s : System) : Label → List (ChunkKey × Bytes)
  | .handler t =>
    (s.handlers.get? t).elim [] fun q => q.2.views.map fun v => (v.1, s.server.l1.bytes v.2)
  | _ => []

/-- No key that a RETRIEVE is about to read is still being written. -/
def ReadsFinished (s : System) : Label → Prop
  | .handler t =>
    match s.handlers.get? t with
    | some (_, .retrieveRead _ keys _) =>
      ∀ k ∈ keys, (s.server.l1.entries.get? k).all Entry.readable = true
    | _ => True
  | _ => True

/-- Every key of which a view has still to be sent is in L1. -/
def ViewsResident (s : System) : Prop :=
  ∀ q ∈ s.handlers.items, ∀ v ∈ q.2.2.views, s.server.l1.entries.contains v.1 = true

theorem readsFinished_iff (s : System) (t : ℕ) : (((s.handlers.get? t).map Prod.snd).all fun
    | .retrieveRead _ keys _ =>
      keys.all fun k => (s.server.l1.entries.get? k).all Entry.readable
    | _ => true) = true ↔ s.ReadsFinished (.handler t) := by
  rw [ReadsFinished]
  rcases s.handlers.get? t with _ | ⟨m, hd⟩
  · simp
  · cases hd <;> simp

instance (s : System) : ∀ l, Decidable (s.ReadsFinished l)
  | .handler t => decidable_of_iff _ (readsFinished_iff s t)
  | .recv _ _ | .worker | .writeback | .evictor | .l2 _ _ => isTrue trivial

instance (s : System) : Decidable s.ViewsResident := by
  unfold ViewsResident
  infer_instance

/-- There is a view for each key, and it is on the slice of the key's readable entry, if the
key has one. -/
structure ViewInv (s : System) : Prop where
  length : ∀ t m r keys objs, s.handlers.get? t = some (m, .retrieveSend r keys objs) →
    keys.length = objs.length
  entry : ∀ t m hd, s.handlers.get? t = some (m, hd) → ∀ v ∈ hd.views,
    ∀ e, s.server.l1.entries.get? v.1 = some e → e.obj = v.2 ∧ e.writeLocked = false

/-- What a step does to thread `t` : nothing, it starts, or it makes its own step. -/
theorem handlers_step {l : Label} (hs : s.step blake3 l = some s') (t : ℕ) :
    s'.handlers.get? t = s.handlers.get? t ∨
    (s.handlers.get? t = none ∧ ∃ m, s'.handlers.get? t = some (m, .start m)) ∨
    (l = .handler t ∧ ∃ m hd hd', s.handlers.get? t = some (m, hd) ∧
      s'.handlers.get? t = some (m, hd') ∧ hd.Does blake3 s.server s'.server hd') := by
  cases l with
  | recv t' m' =>
    obtain ⟨hnone, rfl⟩ := step_recv hs
    by_cases ht : t' = t
    · subst ht
      exact Or.inr (Or.inl ⟨hnone, m', OrderedDict.get?_set_self _ _ _⟩)
    · exact Or.inl (OrderedDict.get?_set_ne _ _ ht)
  | handler t' =>
    obtain ⟨m', hd, srv', hd', hget, hdoes, rfl⟩ := step_handler hs
    by_cases ht : t' = t
    · subst ht
      exact Or.inr (Or.inr ⟨rfl, m', hd, hd', hget, OrderedDict.get?_set_self _ _ _, hdoes⟩)
    · exact Or.inl (OrderedDict.get?_set_ne _ _ ht)
  | worker =>
    obtain ⟨srv', l2s', w', -, rfl⟩ := step_worker hs
    exact Or.inl rfl
  | writeback =>
    obtain ⟨srv', l2s', w', -, rfl⟩ := step_writeback hs
    exact Or.inl rfl
  | evictor =>
    rw [step_evictor hs]
    exact Or.inl rfl
  | l2 i act =>
    cases l2_does hs with
    | found | lookupFail =>
      rw [handlers_setLookup]
      exact Or.inl rfl
    | _ => exact Or.inl rfl

/-- Where a handler of the next state comes from. -/
theorem handlers_of_step {l : Label} (hs : s.step blake3 l = some s') {t : ℕ} {m : Req}
    {hd' : Handler} (hg : s'.handlers.get? t = some (m, hd')) :
    s.handlers.get? t = some (m, hd') ∨ hd' = .start m ∨
      (l = .handler t ∧ ∃ hd, s.handlers.get? t = some (m, hd) ∧
        hd.Does blake3 s.server s'.server hd') := by
  rcases handlers_step hs t with heq | ⟨-, m', hg'⟩ | ⟨hl, m', hd, hd₁, hg₀, hg', hdoes⟩
  · exact Or.inl (heq ▸ hg)
  · rw [hg'] at hg
    cases hg
    exact Or.inr (Or.inl rfl)
  · rw [hg'] at hg
    cases hg
    exact Or.inr (Or.inr ⟨hl, hd, hg₀, hdoes⟩)

/-- The views stay on the slices of readable entries while their keys stay in L1. -/
theorem ViewInv.step {lost : Multiset ChunkKey} {l : Label} (h : s.ViewInv)
    (hinv : s.Inv blake3 lost) (hd : s.Distinct blake3 l) (hread : s.ReadsFinished l)
    (hres : s.ViewsResident) (hs : s.step blake3 l = some s') : s'.ViewInv := by
  obtain ⟨-, hev, -⟩ := inv_step hinv hd hs
  constructor
  · intro t m r keys objs hg
    rcases handlers_of_step hs hg with hg | hstart | ⟨rfl, hd, hg, hdoes⟩
    · exact h.length t m r keys objs hg
    · cases hstart
    · obtain ⟨ws, -, -, hok⟩ := Handler.read_of_does hdoes
      exact (read_ok hok).1
  · intro t m hd' hg v hv e' he'
    rcases handlers_of_step hs hg with hg | rfl | ⟨rfl, hd, hg, hdoes⟩
    · have hc := hres _ (OrderedDict.get?_eq_some_iff.mp hg) v hv
      obtain ⟨e, he⟩ := OrderedDict.mem_keys_iff.mp (OrderedDict.contains_iff.mp hc)
      obtain ⟨hobj, hr⟩ := h.entry t m hd' hg v hv e he
      obtain ⟨hobj', hr'⟩ := hev.entry _ e e' he he'
      exact ⟨hobj'.trans hobj, hr' hr⟩
    · cases hv
    · obtain ⟨r, keys, objs, rfl⟩ := Handler.exists_of_mem_views hv
      obtain ⟨ws, rfl, hsrv, hok⟩ := Handler.read_of_does hdoes
      rw [hsrv] at he'
      obtain ⟨e, he, hobj⟩ := (read_ok hok).2 v hv
      rw [he] at he'
      cases he'
      rw [ReadsFinished, hg] at hread
      have hr := hread v.1 (List.of_mem_zip hv).1
      rw [he] at hr
      exact ⟨hobj, by simpa [Entry.readable] using hr⟩

variable (blake3) in
/-- The steps of runs in which a RETRIEVE reads readable entries only, and they stay until
it has sent them. -/
def Resident (s : System) (l : Label) : Prop :=
  s.Distinct blake3 l ∧ s.ReadsFinished l ∧ s.ViewsResident

instance (s : System) (l : Label) : Decidable (s.Resident blake3 l) := by
  unfold Resident
  infer_instance

/-- A state reached by such steps only. -/
def ResidentlyReachable (blake3 : Bytes → Bytes) (s : System) : Prop :=
  ∃ chunkSize capacity pool adapters ls,
    Run (System.step blake3) (Resident blake3) (new chunkSize capacity pool adapters) ls s

theorem ResidentlyReachable.inv (h : s.ResidentlyReachable blake3) :
    (∃ lost, s.Inv blake3 lost) ∧ s.ViewInv := by
  obtain ⟨chunkSize, capacity, pool, adapters, ls, hrun⟩ := h
  refine hrun.invariant (fun s => (∃ lost, s.Inv blake3 lost) ∧ s.ViewInv) ?_ ?_
  · refine ⟨⟨0, inv_new _ _ _ _⟩, ⟨?_, ?_⟩⟩
    · intro t m r keys objs hg
      cases hg
    · intro t m hd hg
      cases hg
  · rintro s l s' ⟨⟨lost, hinv⟩, hview⟩ ⟨hd, hread, hres⟩ hs
    exact ⟨⟨_, (inv_step hinv hd hs).1⟩, hview.step hinv hd hread hres hs⟩

/-- No torn or foreign RETRIEVE : in a run whose RETRIEVEs read readable entries that stay
in L1 until they are sent, a send puts one frame for each key on the wire, and each is a
complete blob written for its key, in the slice of the key's readable entry. -/
theorem sent_bytes_written (h : s.ResidentlyReachable blake3) (hres : s.ViewsResident) {t : ℕ}
    {m : Req} {r : String} {keys : List ChunkKey} {objs : List MemoryObj}
    (hg : s.handlers.get? t = some (m, .retrieveSend r keys objs)) :
    (s.sends (.handler t)).map Prod.fst = keys ∧
    ∀ p ∈ s.sends (.handler t), p ∈ s.server.written ∧
      ∃ e, s.server.l1.entries.get? p.1 = some e ∧ e.writeLocked = false ∧
        s.server.l1.bytes e.obj = p.2 := by
  obtain ⟨⟨lost, hinv⟩, hview⟩ := h.inv
  have hsends : s.sends (.handler t) =
      (keys.zip objs).map fun v => (v.1, s.server.l1.bytes v.2) := by
    simp only [sends, hg, Option.elim_some, Handler.views]
  rw [hsends]
  constructor
  · rw [List.map_map]
    exact List.map_fst_zip (hview.length _ _ _ _ _ hg).le
  · intro p hp
    obtain ⟨v, hv, rfl⟩ := List.mem_map.mp hp
    have hc := hres _ (OrderedDict.get?_eq_some_iff.mp hg) v hv
    obtain ⟨e, he⟩ := OrderedDict.mem_keys_iff.mp (OrderedDict.contains_iff.mp hc)
    obtain ⟨hobj, hr⟩ := hview.entry t m _ hg v hv e he
    have hdata := hinv.ledger.data _ e he hr
    rw [hobj] at hdata
    exact ⟨hdata, e, he, hr, by rw [hobj]⟩

/-- The chunk of request `a`, looked up by request `b`, whose RETRIEVE has read it. -/
def sampleRead : List Label :=
  sampleLookup ++ [.recv 3 (.retrieve ⟨"b", 7, sampleOp 1, []⟩), .handler 3, .handler 3]

/-- While `b` holds the chunk, its bytes are sent. -/
theorem sent_bytes_written_sample : ∃ s,
    sample (fun s l => decide (s.Resident sampleDigest l)) 2 sampleRead = some s ∧
    (s.sends (.handler 3)).map Prod.fst = [sampleKey 1] ∧
    ∀ p ∈ s.sends (.handler 3), p ∈ s.server.written := by
  have hrun : (sample (fun s l => decide (s.Resident sampleDigest l)) 2 sampleRead).map (fun s =>
      (s.handlers.get? 3, decide s.ViewsResident)) =
      some (some (.retrieve ⟨"b", 7, sampleOp 1, []⟩, .retrieveSend "b" [sampleKey 1] [⟨0, 2⟩]),
        true) := by decide
  obtain ⟨s, hs, he⟩ := Option.map_eq_some_iff.mp hrun
  obtain ⟨hg, hres⟩ := Prod.mk.inj he
  have hreach : s.ResidentlyReachable sampleDigest :=
    ⟨1, 2, _, 1, _, (run_of_replay hs).mono fun _ _ hok => of_decide_eq_true hok⟩
  obtain ⟨hkeys, hsent⟩ := sent_bytes_written hreach (of_decide_eq_true hres) hg
  exact ⟨s, hs, hkeys, fun p hp => (hsent p hp).1⟩

/-- Request `b` is aborted after its RETRIEVE has read the chunk : END_SESSION drops the
hold, the chunk is evicted, and a STORE of request `c` reuses the slice. What is sent for
the chunk of `b` are the bytes of the chunk of `c`. -/
theorem foreign_bytes_sent : ∃ s, sample distinct 2
    (sampleRead ++ [.recv 4 (.endSession "b"), .handler 4, .handler 4, .handler 4, .handler 4,
      .evictor, .evictor, .evictor, .recv 5 (.store ⟨"c", 7, sampleOp 2, [[7, 8]]⟩), .handler 5,
      .handler 5, .handler 5]) = some s ∧
    (s.step sampleDigest (.handler 3)).isSome = true ∧
    ∃ p ∈ s.sends (.handler 3), p.1 = sampleKey 1 ∧ p ∉ s.server.written := by
  have hrun : (sample distinct 2
      (sampleRead ++ [.recv 4 (.endSession "b"), .handler 4, .handler 4, .handler 4, .handler 4,
        .evictor, .evictor, .evictor, .recv 5 (.store ⟨"c", 7, sampleOp 2, [[7, 8]]⟩), .handler 5,
        .handler 5, .handler 5])).map (fun s => ((s.step sampleDigest (.handler 3)).isSome,
      s.sends (.handler 3), s.server.written)) =
      some (true, [(sampleKey 1, [7, 8])],
        [(sampleKey 1, [5, 6]), (sampleKey 2, [7, 8])]) := by decide
  obtain ⟨s, hs, he⟩ := Option.map_eq_some_iff.mp hrun
  simp only [Prod.mk.injEq] at he
  obtain ⟨hstep, hsends, hwritten⟩ := he
  refine ⟨s, hs, hstep, (sampleKey 1, [7, 8]), ?_, rfl, ?_⟩
  · rw [hsends]
    exact List.mem_singleton_self _
  · rw [hwritten]
    decide

end System

end MiniLlmcache
