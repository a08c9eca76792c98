import MiniLlmcache.Geometry
import MiniLlmcache.HashChain
import MiniLlmcache.Restart

/-!
# Where a sent chunk comes from

A cache shared by all requests of all engines, and kept on disk from one process to the next, must
not hand the KV of one prompt to another. `Node.retrieved_same_prefix` : a chunk that a RETRIEVE
sends was carried, whole and unchanged, by a STORE of this process or an earlier one, for an engine
of the same model and rank, and its tokens agree with those of the RETRIEVE up to the end of the
chunk, unless two of the byte strings hashed for the two collide.

Three things come together. What the process does between two restarts is a run of `System`
(`Node.process_run`), so the chunk was written for its key. What was written was carried
(`Node.Backed`), and in full, since the sizes agree (`System.Geometry`). And what was carried was
carried by a STORE that the run has begun (`Node.carried_began`), whose key says which tokens it was
for (`prefix_of_same_hash`).
-/

namespace MiniLlmcache

variable {blake3 : Bytes → Bytes} {size : String → ℕ}

/-! ## The STOREs of a run -/

/-- A STORE whose handler begins : the chunk size of the process, the engine that sent it, its
operation and its chunks. -/
structure Begun where
  chunkSize : ℕ
  inst : EngineInstance
  op : LoadStoreOp
  chunks : List Bytes

variable (blake3) in
def Begun.keys (b : Begun) : List ChunkKey :=
  CacheServer.keysFor ((chunkHashes blake3 (b.op.tokenIds.take b.op.stop) b.chunkSize).drop
    (b.op.start / b.chunkSize)) b.inst.model [b.inst.rank]

theorem Begun.getElem?_keys {b : Begun} {j : ℕ} {k : ChunkKey}
    (h : (b.keys blake3)[j]? = some k) : ∃ hash,
      (chunkHashes blake3 (b.op.tokenIds.take b.op.stop)
        b.chunkSize)[b.op.start / b.chunkSize + j]? = some hash ∧
      k = ⟨hash, b.inst.model, b.inst.rank⟩ := by
  rw [Begun.keys, CacheServer.keysFor_singleton, List.getElem?_map, Option.map_eq_some_iff,
    List.getElem?_drop] at h
  obtain ⟨hash, hhash, rfl⟩ := h
  exact ⟨hash, hhash, rfl⟩

theorem exists_input_of_hash {tokens : List ℕ} {c i : ℕ} {hash : Bytes}
    (h : (chunkHashes blake3 tokens c)[i]? = some hash) :
    i < tokens.length / c ∧ ∃ x, (hashedInputs blake3 tokens c)[i + 1]? = some x ∧
      blake3 x = hash := by
  constructor
  · have hlt := (List.getElem?_eq_some_iff.mp h).1
    rwa [length_chunkHashes] at hlt
  · rwa [← List.getElem?_cons_succ (a := noneHash blake3), ← map_hashedInputs, List.getElem?_map,
      Option.map_eq_some_iff] at h

/-- Two chunks with one hash are the same chunk of prompts that agree up to its end, unless two of
the inputs collide. -/
theorem prefix_of_same_hash (hdigest : ∀ x, (blake3 x).length = 32) {a b : List ℕ}
    (ha : ∀ t ∈ a, t < 2 ^ 32) (hb : ∀ t ∈ b, t < 2 ^ 32) {c d i j : ℕ} {hash : Bytes}
    (hi : (chunkHashes blake3 a c)[i]? = some hash)
    (hj : (chunkHashes blake3 b d)[j]? = some hash) :
    (c = d ∧ i = j ∧ a.take ((i + 1) * c) = b.take ((i + 1) * c)) ∨
      Collision blake3 (hashedInputs blake3 a c ++ hashedInputs blake3 b d) := by
  by_cases hcoll : Collision blake3 (hashedInputs blake3 a c ++ hashedInputs blake3 b d)
  · exact Or.inr hcoll
  · obtain ⟨hic, x, hx, rfl⟩ := exists_input_of_hash hi
    obtain ⟨hjd, y, hy, hxy⟩ := exists_input_of_hash hj
    obtain ⟨hij, hcd, htake⟩ := prefix_eq_of_digest_eq hdigest ha hb
      (fun x hx y hy he => not_not.mp fun hne =>
        hcoll ⟨x, List.mem_append_left _ hx, y, List.mem_append_right _ hy, hne, he⟩)
      hic hjd hx hy hxy.symm
    obtain rfl := Nat.succ_injective hij
    obtain rfl := hcd (Nat.succ_pos i)
    exact Or.inl ⟨rfl, rfl, htake⟩

namespace System

variable {s s' : System}

/-- The STORE that a step begins. -/
def begins (s : System) : Label → List Begun
  | .handler t =>
    match s.handlers.get? t with
    | some (_, .start (.store p)) =>
      (s.server.instances.get? p.instanceId).elim [] fun inst =>
        [⟨s.server.chunkSize, inst, p.op, p.chunks⟩]
    | _ => []
  | _ => []

theorem exists_of_mem_begins {l : Label} {b : Begun} (h : b ∈ s.begins l) :
    ∃ t m p inst, l = .handler t ∧ s.handlers.get? t = some (m, .start (.store p)) ∧
      s.server.instances.get? p.instanceId = some inst ∧
      b = ⟨s.server.chunkSize, inst, p.op, p.chunks⟩ := by
  cases l with
  | handler t =>
    rw [begins] at h
    split at h
    · rename_i m p hget
      rcases hinst : s.server.instances.get? p.instanceId with _ | inst
      · rw [hinst] at h
        cases h
      · rw [hinst] at h
        exact ⟨t, m, p, inst, rfl, hget, hinst, List.mem_singleton.mp h⟩
    · cases h
  | _ => cases h

variable (blake3) in
/-- What these STOREs carry. -/
def brings (s : System) (l : Label) : List (ChunkKey × Bytes) :=
  (s.begins l).flatMap fun b => (b.keys blake3).zip b.chunks

/-- A handler adds to what was carried when it begins a STORE. -/
theorem carried_of_does {srv srv' : CacheServer} {hd hd' : Handler}
    (hs : hd.Does blake3 srv srv' hd') : srv'.carried = srv.carried ∨
      ∃ p inst, hd = .start (.store p) ∧ srv.instances.get? p.instanceId = some inst ∧
        srv'.carried = srv.carried ++ (srv.opKeys blake3 p.op inst).zip p.chunks := by
  cases hs with
  | dispatch m =>
    cases m with
    | store p =>
      simp only [Handler.dispatch]
      split
      · exact Or.inl rfl
      · rename_i inst hinst
        exact Or.inr ⟨p, inst, rfl, hinst, rfl⟩
    | retrieve p =>
      simp only [Handler.dispatch]
      split <;> exact Or.inl rfl
    | _ => exact Or.inl rfl
  | release hrel =>
    rw [CacheServer.eq_of_releaseHeld.1 _ hrel]
    exact Or.inl rfl
  | releaseFail hrel =>
    rw [CacheServer.eq_of_releaseHeld.2 _ hrel]
    exact Or.inl rfl
  | _ => exact Or.inl rfl

/-- What a step adds to what was carried, it brings. -/
theorem mem_carried_step {l : Label} (hs : s.step blake3 l = some s') {q : ChunkKey × Bytes}
    (hq : q ∈ s'.server.carried) : q ∈ s.server.carried ∨ q ∈ s.brings blake3 l := by
  cases l with
  | recv t m =>
    obtain ⟨-, rfl⟩ := step_recv hs
    exact Or.inl hq
  | handler t =>
    obtain ⟨m, hd, srv', hd', hget, hdoes, rfl⟩ := step_handler hs
    rcases carried_of_does hdoes with heq | ⟨p, inst, rfl, hinst, heq⟩
    · exact Or.inl (heq ▸ hq)
    · rw [heq] at hq
      refine (List.mem_append.mp hq).imp id fun hq => ?_
      rw [brings, begins, hget]
      simp only [hinst, Option.elim_some, List.flatMap_singleton]
      exact hq
  | worker =>
    obtain ⟨srv', l2s', w', hdoes, rfl⟩ := step_worker hs
    exact Or.inl (hdoes.ghosts_eq.1 ▸ hq)
  | writeback =>
    obtain ⟨srv', l2s', w', hdoes, rfl⟩ := step_writeback hs
    exact Or.inl (hdoes.ghosts_eq.1 ▸ hq)
  | evictor =>
    obtain rfl := step_evictor hs
    exact Or.inl ((Evictor.ghosts_eq _ _).1 ▸ hq)
  | l2 i act => exact Or.inl ((l2_ghosts hs).1 ▸ hq)

/-- What a RETRIEVE sends, while it is in L1, was written. -/
theorem ViewInv.sends_written {lost : Multiset ChunkKey} (h : s.ViewInv) (hinv : s.Inv blake3 lost)
    (hres : s.ViewsResident) {t : ℕ} {m : Req} {r : String} {keys : List ChunkKey}
    {objs : List MemoryObj} (hg : s.handlers.get? t = some (m, .retrieveSend r keys objs)) :
    (s.sends (.handler t)).map Prod.fst = keys ∧
      ∀ q ∈ s.sends (.handler t), q ∈ s.server.written := by
  have hsends : s.sends (.handler t) =
      (keys.zip objs).map fun v => (v.1, s.server.l1.bytes v.2) := by
    simp only [sends, hg, Option.elim_some, Handler.views]
  rw [hsends, List.map_map]
  refine ⟨List.map_fst_zip (h.length _ _ _ _ _ hg).le, fun q hq => ?_⟩
  obtain ⟨v, hv, rfl⟩ := List.mem_map.mp hq
  have hc := hres _ (OrderedDict.get?_eq_some_iff.mp hg) v hv
  obtain ⟨e, he⟩ := OrderedDict.mem_keys_iff.mp (OrderedDict.contains_iff.mp hc)
  obtain ⟨hobj, hr⟩ := h.entry t m _ hg v hv e he
  exact hobj ▸ hinv.ledger.data _ e he hr

end System

namespace Node

variable {n n' start : Node} {labels : List NodeLabel}

def begins (n : Node) : NodeLabel → List Begun
  | .run l => n.system.begins l
  | _ => []

variable (blake3) in
/-- The run along `labels` has begun the STORE `b`. -/
def Began (start : Node) (labels : List NodeLabel) (b : Begun) : Prop :=
  ∃ before l after n₁, labels = before ++ l :: after ∧
    Run (step blake3) (fun _ _ => True) start before n₁ ∧ b ∈ n₁.begins l

theorem Began.snoc {b : Begun} (h : Began blake3 start labels b) (l : NodeLabel) :
    Began blake3 start (labels ++ [l]) b := by
  obtain ⟨before, l', after, n₁, rfl, hrun, hb⟩ := h
  exact ⟨before, l', after ++ [l], n₁, by simp, hrun, hb⟩

theorem mem_carried_step {l : NodeLabel} (hs : n.step blake3 l = some n') {q : ChunkKey × Bytes}
    (hq : q ∈ n'.carried) :
    q ∈ n.carried ∨ ∃ b ∈ n.begins l, q ∈ (b.keys blake3).zip b.chunks := by
  cases steps_of_step hs with
  | run hl hsys =>
    rcases List.mem_append.mp hq with hq | hq
    · exact Or.inl (List.mem_append_left _ hq)
    · refine (System.mem_carried_step hsys hq).imp (List.mem_append_right _) fun hq => ?_
      exact List.mem_flatMap.mp hq
  | take => exact Or.inl hq
  | disk hl hfs hstep hsys =>
    refine Or.inl ?_
    rcases List.mem_append.mp hq with hq | hq
    · exact List.mem_append_left _ hq
    · refine List.mem_append_right _ (System.answer_invariant
        (fun t => ∀ q ∈ t.server.carried, q ∈ n.system.server.carried) hsys (fun _ => id) ?_ q hq)
      intro t act _ t' ht hstep q hq
      exact ht q ((System.l2_ghosts hstep).1 ▸ hq)
  | restart =>
    rcases List.mem_append.mp hq with hq | hq
    · exact Or.inl hq
    · cases hq

/-- Whatever was carried was carried by a STORE of the run. -/
theorem carried_began {ok : Node → NodeLabel → Prop} (h : Run (step blake3) ok start labels n)
    (h0 : start.carried = []) : ∀ q ∈ n.carried, ∃ b, Began blake3 start labels b ∧
      q ∈ (b.keys blake3).zip b.chunks := by
  induction h with
  | refl =>
    intro q hq
    rw [h0] at hq
    cases hq
  | @snoc before n₁ l n' hrun _ hs ih =>
    intro q hq
    rcases mem_carried_step hs hq with hq | ⟨b, hb, hq⟩
    · obtain ⟨b, hb, hq⟩ := ih q hq
      exact ⟨b, hb.snoc l, hq⟩
    · exact ⟨b, ⟨before, l, [], n₁, rfl, hrun.mono fun _ _ _ => trivial, hb⟩, hq⟩

/-! ## The process between two restarts -/

/-- What happens to the process after its start is a run of `System` : a step of its own threads,
or what it sees of an access to a directory. -/
theorem process_run {okN : Node → NodeLabel → Prop} {okS : System → Label → Prop}
    {chunkSize capacity adapters : ℕ} {pool : ℕ → UInt8}
    (h : Run (step blake3) okN (new chunkSize capacity pool adapters) labels n)
    (hrun : ∀ n l, okN n (.run l) → okS n.system l)
    (hdisk : ∀ n i l act (t : System), okN n (.disk i l) → t.handlers = n.system.handlers →
      t.server.l1.entries = n.system.server.l1.entries → okS t (.l2 i act)) :
    ∃ chunkSize capacity pool adapters ls,
      Run (System.step blake3) okS (.new chunkSize capacity pool adapters) ls n.system := by
  induction h with
  | refl => exact ⟨_, _, _, _, _, .refl⟩
  | @snoc _ n₁ l n' _ hok hs ih =>
    cases steps_of_step hs with
    | run hl hsys =>
      obtain ⟨c, cap, p, a, ls, hls⟩ := ih
      exact ⟨c, cap, p, a, _, hls.snoc (hrun _ _ hok) hsys⟩
    | take => exact ih
    | disk hl hfs hstep hsys =>
      refine (System.answer_invariant (fun t => (∃ c cap p a ls,
        Run (System.step blake3) okS (.new c cap p a) ls t) ∧
        t.handlers = n₁.system.handlers ∧
        t.server.l1.entries = n₁.system.server.l1.entries) hsys ⟨ih, rfl, rfl⟩ ?_).1
      rintro t act - t' ⟨⟨c, cap, p, a, ls, hls⟩, hhandlers, hentries⟩ hstep
      refine ⟨⟨c, cap, p, a, _, hls.snoc (hdisk _ _ _ act t hok hhandlers hentries) hstep⟩,
        (System.l2_ghosts hstep).2.1.trans hhandlers, ?_⟩
      refine Eq.trans ?_ hentries
      cases System.l2_does hstep with
      | found | lookupFail => rw [System.server_setLookup]; rfl
      | _ => rfl
    | restart => exact ⟨_, _, _, _, _, .refl⟩

/-! ## What the messages of a run say -/

/-- An engine has registered under this id. -/
def Registers (labels : List NodeLabel) (instanceId : ℕ) (inst : EngineInstance) : Prop :=
  ∃ t p, .run (.recv t (.registerKvCache p)) ∈ labels ∧ p.instanceId = instanceId ∧
    inst = ⟨p.rank, p.model, p.worldSize, p.blockSize, p.chunkNbytes⟩

end Node

namespace Handler

variable {srv srv' : CacheServer} {hd hd' : Handler}

/-- The keys that a RETRIEVE is about to read, or has read. -/
def reads : Handler → Option (List ChunkKey)
  | retrieveRead _ keys _ | retrieveSend _ keys _ => some keys
  | _ => none

theorem reads_of_does {keys : List ChunkKey} (hs : hd.Does blake3 srv srv' hd')
    (h : hd'.reads = some keys) : hd.reads = some keys ∨ ∃ p inst, hd = .start (.retrieve p) ∧
      srv.instances.get? p.instanceId = some inst ∧ keys = srv.opKeys blake3 p.op inst := by
  cases hs with
  | dispatch m =>
    cases m with
    | retrieve p =>
      simp only [dispatch] at h
      split at h
      · cases h
      · rename_i inst hinst
        cases h
        exact Or.inr ⟨p, inst, rfl, hinst, rfl⟩
    | store p =>
      simp only [dispatch] at h
      split at h <;> cases h
    | _ => cases h
  | read => exact Or.inl h
  | finishRead => split_ifs at h <;> cases h
  | _ => cases h

theorem not_start_of_does {m : Req} (hs : hd.Does blake3 srv srv' hd') : hd' ≠ .start m := by
  rintro rfl
  generalize he : Handler.start m = hd' at hs
  cases hs with
  | dispatch m' =>
    cases m' with
    | retrieve p | store p =>
      simp only [dispatch] at he
      split at he <;> cases he
    | _ => cases he
  | finishRead => split_ifs at he
  | _ => cases he

theorem chunkSize_of_does (hs : hd.Does blake3 srv srv' hd') : srv'.chunkSize = srv.chunkSize := by
  cases hs with
  | dispatch m =>
    cases m with
    | retrieve p | store p =>
      simp only [dispatch]
      split <;> rfl
    | _ => rfl
  | release hrel => rw [CacheServer.eq_of_releaseHeld.1 _ hrel]
  | releaseFail hrel => rw [CacheServer.eq_of_releaseHeld.2 _ hrel]
  | _ => rfl

/-- What a handler changes of the registered engines. -/
theorem instances_of_does {i : ℕ} {inst : EngineInstance} (hs : hd.Does blake3 srv srv' hd')
    (h : srv'.instances.get? i = some inst) : srv.instances.get? i = some inst ∨
      ∃ p, hd = .start (.registerKvCache p) ∧ p.instanceId = i ∧
        inst = ⟨p.rank, p.model, p.worldSize, p.blockSize, p.chunkNbytes⟩ := by
  cases hs with
  | dispatch m =>
    cases m with
    | registerKvCache p =>
      rcases OrderedDict.eq_or_get?_of_set h with ⟨hi, hinst⟩ | h
      · exact Or.inr ⟨p, rfl, hi, hinst.symm⟩
      · exact Or.inl h
    | unregisterKvCache j =>
      simp only [dispatch, CacheServer.unregister, OrderedDict.get?_erase] at h
      split_ifs at h
      exact Or.inl h
    | retrieve p | store p =>
      simp only [dispatch] at h
      split at h <;> exact Or.inl h
    | _ => exact Or.inl h
  | release hrel =>
    rw [CacheServer.eq_of_releaseHeld.1 _ hrel] at h
    exact Or.inl h
  | releaseFail hrel =>
    rw [CacheServer.eq_of_releaseHeld.2 _ hrel] at h
    exact Or.inl h
  | _ => exact Or.inl h

end Handler

namespace System

variable {s s' : System}

/-- Only handlers register engines, and nothing changes the chunk size. -/
theorem instances_step {l : Label} (hl : ∀ t, l ≠ .handler t) (hs : s.step blake3 l = some s') :
    s'.server.instances = s.server.instances ∧ s'.server.chunkSize = s.server.chunkSize := by
  cases l with
  | recv t m =>
    obtain ⟨-, rfl⟩ := step_recv hs
    exact ⟨rfl, rfl⟩
  | handler t => exact (hl t rfl).elim
  | worker =>
    obtain ⟨srv', l2s', w', hdoes, rfl⟩ := step_worker hs
    generalize s.worker = w at hdoes
    cases hdoes <;> exact ⟨rfl, rfl⟩
  | writeback =>
    obtain ⟨srv', l2s', w', hdoes, rfl⟩ := step_writeback hs
    generalize s.writeback = w at hdoes
    cases hdoes <;> exact ⟨rfl, rfl⟩
  | evictor =>
    obtain rfl := step_evictor hs
    cases s.evictor <;> exact ⟨rfl, rfl⟩
  | l2 i act =>
    cases l2_does hs with
    | found | lookupFail =>
      rw [server_setLookup]
      exact ⟨rfl, rfl⟩
    | _ => exact ⟨rfl, rfl⟩

end System

namespace Node

variable {n n' start : Node} {labels : List NodeLabel}

variable (blake3) in
/-- Every handler works on a message of the run, every engine has registered in it, and the keys of
a RETRIEVE are those of its operation, for such an engine. -/
structure Heard (labels : List NodeLabel) (s : System) : Prop where
  received : ∀ t m hd, s.handlers.get? t = some (m, hd) → .run (.recv t m) ∈ labels
  starts : ∀ t m m', s.handlers.get? t = some (m, .start m') → m' = m
  instances : ∀ i inst, s.server.instances.get? i = some inst → Registers labels i inst
  reads : ∀ t m hd keys, s.handlers.get? t = some (m, hd) → hd.reads = some keys →
    ∃ p inst, m = .retrieve p ∧ Registers labels p.instanceId inst ∧
      keys = s.server.opKeys blake3 p.op inst

theorem heard_new (labels : List NodeLabel) (chunkSize capacity : ℕ) (pool : ℕ → UInt8)
    (adapters : ℕ) : Heard blake3 labels (.new chunkSize capacity pool adapters) :=
  ⟨by rintro _ _ _ ⟨⟩, by rintro _ _ _ ⟨⟩, by rintro _ _ ⟨⟩, by rintro _ _ _ _ ⟨⟩⟩

theorem Registers.snoc {i : ℕ} {inst : EngineInstance} (h : Registers labels i inst)
    (l : NodeLabel) : Registers (labels ++ [l]) i inst := by
  obtain ⟨t, p, hmem, hp⟩ := h
  exact ⟨t, p, List.mem_append_left _ hmem, hp⟩

theorem Heard.snoc {s : System} (h : Heard blake3 labels s) (l : NodeLabel) :
    Heard blake3 (labels ++ [l]) s where
  received t m hd hget := List.mem_append_left _ (h.received t m hd hget)
  starts := h.starts
  instances i inst hi := (h.instances i inst hi).snoc l
  reads t m hd keys hget hkeys := by
    obtain ⟨p, inst, hm, hreg, hp⟩ := h.reads t m hd keys hget hkeys
    exact ⟨p, inst, hm, hreg.snoc l, hp⟩

/-- A step that leaves handlers and engines alone. -/
theorem Heard.of_eq {s s' : System} (h : Heard blake3 labels s)
    (hhandlers : s'.handlers = s.handlers) (hinst : s'.server.instances = s.server.instances)
    (hsize : s'.server.chunkSize = s.server.chunkSize) : Heard blake3 labels s' where
  received := hhandlers ▸ h.received
  starts := hhandlers ▸ h.starts
  instances := hinst ▸ h.instances
  reads t m hd keys hget hkeys := by
    obtain ⟨p, inst, hm, hreg, rfl⟩ := h.reads t m hd keys (hhandlers ▸ hget) hkeys
    refine ⟨p, inst, hm, hreg, ?_⟩
    rw [CacheServer.opKeys, CacheServer.opKeys, hsize]

theorem Heard.step {s s' : System} {l : Label} (h : Heard blake3 labels s)
    (hs : s.step blake3 l = some s') : Heard blake3 (labels ++ [.run l]) s' := by
  have hsnoc := h.snoc (.run l)
  cases l with
  | recv t m =>
    obtain ⟨-, rfl⟩ := System.step_recv hs
    refine ⟨fun t' m' hd hget => ?_, fun t' m₁ m' hget => ?_, hsnoc.instances,
      fun t' m' hd keys hget hkeys => ?_⟩
    · rcases OrderedDict.eq_or_get?_of_set hget with ⟨rfl, he⟩ | hget
      · cases he
        exact List.mem_append_right _ (List.mem_singleton_self _)
      · exact hsnoc.received t' m' hd hget
    · rcases OrderedDict.eq_or_get?_of_set hget with ⟨-, he⟩ | hget
      · cases he
        rfl
      · exact h.starts t' m₁ m' hget
    · rcases OrderedDict.eq_or_get?_of_set hget with ⟨-, he⟩ | hget
      · cases he
        cases hkeys
      · exact hsnoc.reads t' m' hd keys hget hkeys
  | handler t =>
    obtain ⟨m, hd, srv', hd', hget, hdoes, rfl⟩ := System.step_handler hs
    have hkeysOf : ∀ (op : LoadStoreOp) (inst : EngineInstance),
        srv'.opKeys blake3 op inst = s.server.opKeys blake3 op inst := fun op inst => by
      rw [CacheServer.opKeys, CacheServer.opKeys, Handler.chunkSize_of_does hdoes]
    refine ⟨fun t' m' h' hget' => ?_, fun t' m₁ m' hget' => ?_, fun i inst hi => ?_,
      fun t' m' h' keys hget' hkeys => ?_⟩
    · rcases OrderedDict.eq_or_get?_of_set hget' with ⟨rfl, he⟩ | hget'
      · cases he
        exact hsnoc.received _ _ _ hget
      · exact hsnoc.received t' m' h' hget'
    · rcases OrderedDict.eq_or_get?_of_set hget' with ⟨-, he⟩ | hget'
      · cases he
        exact (Handler.not_start_of_does hdoes rfl).elim
      · exact h.starts t' m₁ m' hget'
    · rcases Handler.instances_of_does hdoes hi with hi | ⟨p, rfl, rfl, rfl⟩
      · exact hsnoc.instances i inst hi
      · obtain rfl := h.starts t m _ hget
        exact ⟨t, p, hsnoc.received t _ _ hget, rfl, rfl⟩
    · rcases OrderedDict.eq_or_get?_of_set hget' with ⟨rfl, he⟩ | hget'
      · cases he
        rcases Handler.reads_of_does hdoes hkeys with hkeys | ⟨p, inst, rfl, hinst, rfl⟩
        · obtain ⟨p, inst, hm, hreg, hkeys⟩ := hsnoc.reads _ _ _ keys hget hkeys
          exact ⟨p, inst, hm, hreg, hkeys.trans (hkeysOf _ _).symm⟩
        · obtain rfl := h.starts _ m _ hget
          exact ⟨p, inst, rfl, hsnoc.instances _ _ hinst, (hkeysOf _ _).symm⟩
      · obtain ⟨p, inst, hm, hreg, hkeys⟩ := hsnoc.reads t' m' h' keys hget' hkeys
        exact ⟨p, inst, hm, hreg, hkeys.trans (hkeysOf _ _).symm⟩
  | _ =>
    have hinst := System.instances_step (by rintro _ ⟨⟩) hs
    exact hsnoc.of_eq (System.handlers_background hs (by rintro _ ⟨⟩) (by rintro _ _ ⟨⟩)) hinst.1
      hinst.2

theorem heard_of_run {ok : Node → NodeLabel → Prop} {chunkSize capacity adapters : ℕ}
    {pool : ℕ → UInt8} (h : Run (step blake3) ok (new chunkSize capacity pool adapters) labels n) :
    Heard blake3 labels n.system := by
  induction h with
  | refl => exact heard_new _ _ _ _ _
  | @snoc _ n₁ l n' _ _ hs ih =>
    cases steps_of_step hs with
    | run hl hsys => exact ih.step hsys
    | take => exact ih.snoc _
    | disk hl hfs hstep hsys =>
      exact System.answer_invariant (Heard blake3 _) hsys (ih.snoc _) fun t act _ t' ht hstep =>
        ht.of_eq (System.l2_ghosts hstep).2.1 (System.instances_step (by rintro _ ⟨⟩) hstep).1
          (System.instances_step (by rintro _ ⟨⟩) hstep).2
    | restart => exact heard_new _ _ _ _ _

/-- The STOREs of a run came in as messages, from engines that had registered. -/
theorem heard_began {chunkSize capacity adapters : ℕ} {pool : ℕ → UInt8} {b : Begun}
    (h : Began blake3 (new chunkSize capacity pool adapters) labels b) :
    ∃ t p, .run (.recv t (.store p)) ∈ labels ∧ Registers labels p.instanceId b.inst ∧
      b.op = p.op ∧ b.chunks = p.chunks := by
  obtain ⟨before, l, after, n₁, rfl, hrun, hmem⟩ := h
  have hheard := heard_of_run hrun
  cases l with
  | run l =>
    obtain ⟨t, m, p, inst, rfl, hget, hinst, rfl⟩ := System.exists_of_mem_begins hmem
    obtain rfl := hheard.starts t m _ hget
    obtain ⟨t', p', hreg, hp'⟩ := hheard.instances _ _ hinst
    exact ⟨t, p, List.mem_append_left _ (hheard.received t _ _ hget),
      ⟨t', p', List.mem_append_left _ hreg, hp'⟩, rfl, rfl⟩
  | _ => cases hmem

end Node

/-! ## What the engines and sessions promise -/

/-- The tokens that a STORE or RETRIEVE hashes. -/
def Req.tokenIds : Req → List ℕ
  | .store p | .retrieve p => p.op.tokenIds
  | _ => []

namespace NodeLabel

/-- What the process does by itself. -/
def process : NodeLabel → Option Label
  | .run l => some l
  | _ => none

def tokenIds (l : NodeLabel) : List ℕ :=
  match l.process with
  | some (.recv _ m) => m.tokenIds
  | _ => []

end NodeLabel

namespace Node

variable {n n' start : Node} {labels : List NodeLabel}

variable (blake3 size) in
/-- Chunk hashes of one message do not collide, and file names of stored chunks do not; the engines
of a model agree on its chunk size; a RETRIEVE reads entries that are finished and stay in L1 until
it has sent them; and tokens are packed into four bytes, which `struct.pack` checks. -/
def Promised (n : Node) (l : NodeLabel) : Prop :=
  n.Distinct blake3 l ∧ n.Apart ∧ (∀ l' ∈ l.process, n.system.Uniform size l') ∧
    (n.system.ViewsResident ∧ ∀ l' ∈ l.process, n.system.ReadsFinished l') ∧
    ∀ t ∈ l.tokenIds, t < 2 ^ 32

instance (n : Node) (l : NodeLabel) : Decidable (n.Promised blake3 size l) := by
  unfold Promised
  infer_instance

variable (size) in
/-- What was carried has the size of its model. -/
structure Whole (n : Node) : Prop where
  geometry : n.system.Geometry size
  carried : ∀ q ∈ n.carried, q.2.length = size q.1.model

theorem whole_new (chunkSize capacity : ℕ) (pool : ℕ → UInt8) (adapters : ℕ) :
    (new chunkSize capacity pool adapters).Whole size :=
  ⟨System.geometry_new _ _ _ _, List.forall_mem_nil _⟩

theorem Whole.step {l : NodeLabel} (h : n.Whole size)
    (hu : ∀ l' ∈ l.process, n.system.Uniform size l') (hs : n.step blake3 l = some n') :
    n'.Whole size := by
  constructor
  · cases steps_of_step hs with
    | run hl hsys => exact h.geometry.step (hu _ rfl) hsys
    | take => exact h.geometry
    | disk hl hfs hstep hsys =>
      exact System.answer_invariant (System.Geometry size) hsys h.geometry
        fun _ _ _ _ ht hstep => ht.step (l := .l2 _ _) trivial hstep
    | restart => exact System.geometry_new _ _ _ _
  · intro q hq
    rcases mem_carried_step hs hq with hq | ⟨b, hb, hq⟩
    · exact h.carried q hq
    · cases l with
      | run l =>
        obtain ⟨t, m, p, inst, rfl, hget, hinst, rfl⟩ := System.exists_of_mem_begins hb
        obtain ⟨hkey, hchunk⟩ := List.of_mem_zip hq
        rw [CacheServer.model_of_mem_keysFor hkey, ← h.geometry.server.instances _ _ hinst]
        exact hu _ rfl _ hget inst hinst _ hchunk
      | _ => cases hb

/-- What a RETRIEVE sends was carried, in full. -/
theorem sends_carried {chunkSize capacity adapters : ℕ} {pool : ℕ → UInt8}
    (h : Run (step blake3) (Promised blake3 size) (new chunkSize capacity pool adapters) labels n)
    (hres : n.system.ViewsResident) {t : ℕ} {m : Req} {r : String} {keys : List ChunkKey}
    {objs : List MemoryObj}
    (hg : n.system.handlers.get? t = some (m, .retrieveSend r keys objs)) :
    (n.system.sends (.handler t)).map Prod.fst = keys ∧
      ∀ q ∈ n.system.sends (.handler t), q ∈ n.carried := by
  have hbacked := (h.mono fun _ _ hok => (⟨hok.1, hok.2.1⟩ : _ ∧ _)).invariant
    (fun n => n.Coherent blake3 ∧ n.Backed) ⟨coherent_new _ _ _ _, backed_new _ _ _ _⟩
    fun n l n' ⟨hc, hb⟩ ⟨hd, hapart⟩ hs => ⟨hc.step hd hs, hb.step hc hapart hs⟩
  have hwhole := h.invariant (Whole size) (whole_new _ _ _ _)
    fun _ _ _ hw hok hs => hw.step hok.2.2.1 hs
  have hreach : n.system.ResidentlyReachable blake3 := by
    refine process_run h (fun n l hok => ⟨hok.1, hok.2.2.2.1.2 _ rfl, hok.2.2.2.1.1⟩)
      fun n i l act t hok hhandlers hentries => ⟨trivial, trivial, fun q hq v hv => ?_⟩
    rw [hentries]
    exact hok.2.2.2.1.1 q (hhandlers ▸ hq) v hv
  obtain ⟨⟨lost, hinv⟩, hview⟩ := hreach.inv
  obtain ⟨hkeys, hsent⟩ := hview.sends_written hinv hres hg
  refine ⟨hkeys, fun q hq => ?_⟩
  obtain ⟨blob, hblob, hpre⟩ := hbacked.2.written q (hsent q hq)
  have hlen : q.2.length = blob.length :=
    (hwhole.geometry.length_sends q hq).trans (hwhole.carried _ hblob).symm
  obtain rfl : q.2 = blob := hpre.eq_of_length hlen
  exact hblob

/-- No prompt gets the KV of another, not even from an earlier process. Chunk `i` of what a RETRIEVE
sends, for an engine that has registered, is chunk `j` of a STORE that the run has begun, byte for
byte, for an engine of the same model and rank; the two are the same chunk of their prompts, and
these agree up to its end, or two of the byte strings hashed for them collide. -/
theorem retrieved_same_prefix (hdigest : ∀ x, (blake3 x).length = 32)
    {chunkSize capacity adapters : ℕ} {pool : ℕ → UInt8}
    (h : Run (step blake3) (Promised blake3 size) (new chunkSize capacity pool adapters) labels n)
    (hres : n.system.ViewsResident) {t : ℕ} {p : TransferPayload} {r : String}
    {keys : List ChunkKey} {objs : List MemoryObj}
    (hg : n.system.handlers.get? t = some (.retrieve p, .retrieveSend r keys objs)) :
    ∃ inst, Registers labels p.instanceId inst ∧
      (n.system.sends (.handler t)).map Prod.fst = n.system.server.opKeys blake3 p.op inst ∧
      ∀ i frame, ((n.system.sends (.handler t)).map Prod.snd)[i]? = some frame →
        ∃ b j, Began blake3 (new chunkSize capacity pool adapters) labels b ∧
          b.chunks[j]? = some frame ∧ b.inst.model = inst.model ∧ b.inst.rank = inst.rank ∧
          ((b.chunkSize = n.system.server.chunkSize ∧
            b.op.start / b.chunkSize + j = p.op.start / b.chunkSize + i ∧
            (b.op.tokenIds.take b.op.stop).take ((p.op.start / b.chunkSize + i + 1) * b.chunkSize) =
              (p.op.tokenIds.take p.op.stop).take
                ((p.op.start / b.chunkSize + i + 1) * b.chunkSize)) ∨
            Collision blake3 (hashedInputs blake3 (b.op.tokenIds.take b.op.stop) b.chunkSize ++
              hashedInputs blake3 (p.op.tokenIds.take p.op.stop) n.system.server.chunkSize)) := by
  have hheard := heard_of_run h
  have hpacks := h.forall_label fun _ _ hok => hok.2.2.2.2
  obtain ⟨p', inst, hp', hreg, rfl⟩ := hheard.reads t _ _ _ hg rfl
  cases hp'
  obtain ⟨hkeys, hcarried⟩ := sends_carried h hres hg
  refine ⟨inst, hreg, hkeys, fun i frame hframe => ?_⟩
  rw [List.getElem?_map, Option.map_eq_some_iff] at hframe
  obtain ⟨⟨k, frame⟩, hi, rfl⟩ := hframe
  -- the STORE that carried the chunk
  obtain ⟨b, hb, hq⟩ := carried_began h rfl _ (hcarried _ (List.mem_of_getElem? hi))
  obtain ⟨j, hj⟩ := List.mem_iff_getElem?.mp hq
  obtain ⟨hbkey, hchunk⟩ := List.getElem?_zip_eq_some.mp hj
  obtain ⟨hash, hhash, rfl⟩ := Begun.getElem?_keys hbkey
  -- the key that the RETRIEVE asked for
  have hkey : (n.system.server.opKeys blake3 p.op inst)[i]? =
      some ⟨hash, b.inst.model, b.inst.rank⟩ := by
    rw [← hkeys, List.getElem?_map, hi]
    rfl
  obtain ⟨hash', hhash', he⟩ := Begun.getElem?_keys
    (b := ⟨n.system.server.chunkSize, inst, p.op, []⟩) hkey
  obtain ⟨rfl, hmodel, hrank⟩ := ChunkKey.mk.inj he
  refine ⟨b, j, hb, hchunk, hmodel, hrank, ?_⟩
  obtain ⟨t', p', hmem, -, hop, -⟩ := heard_began hb
  have hsame := prefix_of_same_hash hdigest
    (fun t ht => hpacks _ hmem t (List.mem_of_mem_take (hop ▸ ht)))
    (fun t ht => hpacks _ (hheard.received _ _ _ hg) t (List.mem_of_mem_take ht))
    hhash hhash'
  refine hsame.imp (fun ⟨hc, hij, htokens⟩ => ?_) id
  rw [hc] at hij htokens ⊢
  exact ⟨rfl, hij, hij ▸ htokens⟩

/-- The second process also serves a RETRIEVE of the longer prompt `[1, 9]`, which asks for its
first chunk. -/
def sampleServe : List NodeLabel :=
  sampleWriteBack ++ .restart 1 2 (fun _ => 0) [] :: sampleReload ++
    ([.recv 2 (.retrieve ⟨"b", 7, ⟨[1, 9], [0], 0, 1, 0⟩, []⟩), .handler 2, .handler 2] :
      List Label).map .run

/-- What it sends was stored before the restart, for the same token. -/
theorem retrieved_same_prefix_sample : ∃ n b, replay (step System.sampleDigest)
      (fun n l => decide (n.Promised System.sampleDigest (fun _ => 2) l))
      (new 1 2 (fun _ => 0) 1) sampleServe = some n ∧
    n.system.server.carried = [] ∧
    (n.system.sends (.handler 2)).map Prod.snd = [[5, 6]] ∧
    Began System.sampleDigest (new 1 2 (fun _ => 0) 1) sampleServe b ∧ [5, 6] ∈ b.chunks ∧
    b.inst.model = "m" := by
  have hrun : (replay (step System.sampleDigest)
      (fun n l => decide (n.Promised System.sampleDigest (fun _ => 2) l))
      (new 1 2 (fun _ => 0) 1) sampleServe).map (fun n =>
        (decide (n.system.server.carried = [] ∧ n.system.ViewsResident ∧
          (n.system.sends (.handler 2)).map Prod.snd = [[5, 6]]), n.system.handlers.get? 2)) =
      some (true, some (.retrieve ⟨"b", 7, ⟨[1, 9], [0], 0, 1, 0⟩, []⟩,
        .retrieveSend "b" [System.sampleKey 1] [⟨0, 2⟩])) := by decide
  obtain ⟨n, hn, he⟩ := Option.map_eq_some_iff.mp hrun
  simp only [Prod.mk.injEq, decide_eq_true_eq] at he
  obtain ⟨⟨hcarried, hres, hsends⟩, hget⟩ := he
  have hdigest : ∀ x, (System.sampleDigest x).length = 32 := fun x => by simp [System.sampleDigest]
  obtain ⟨inst, ⟨t, p, hreg, -, rfl⟩, -, hfrom⟩ := retrieved_same_prefix hdigest
    ((run_of_replay hn).mono fun _ _ hok => of_decide_eq_true hok) hres hget
  obtain ⟨b, j, hb, hchunk, hmodel, -⟩ := hfrom 0 [5, 6] (by rw [hsends]; rfl)
  have hm : p.model = "m" := by
    simp [sampleServe, sampleWriteBack, sampleReload] at hreg
    rw [hreg.2]
  exact ⟨n, b, hn, hcarried, hsends, hb, List.mem_of_getElem? hchunk, hmodel.trans hm⟩

end Node

end MiniLlmcache
