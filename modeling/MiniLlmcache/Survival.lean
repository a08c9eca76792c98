import MiniLlmcache.Provenance
import MiniLlmcache.RoundTrip

/-!
# KV blocks that outlive the process

A request stores its KV blocks, the server dies, and a request of the next process loads them : out
of the device memory of one engine, through L1, the files of an adapter, a new cache over the same
directory, L1 again, and into the block table of another engine. `Node.kv_survives_restart` is the
round trip over all of it. The server's part is `Node.sends_carried` and what the messages of the
run say (`Node.Heard`), the engines' part is `Engine.Loads.restored`, as within one process.
-/

namespace MiniLlmcache

namespace Node

variable {blake3 : Bytes → Bytes} {size : String → ℕ} {n : Node} {labels : List NodeLabel}
  {A B : Engine}

/-- A process keeps the chunk size that it was started with. -/
theorem chunkSize_of_run {ok : Node → NodeLabel → Prop} {chunkSize capacity adapters : ℕ}
    {pool : ℕ → UInt8} (h : Run (step blake3) ok (new chunkSize capacity pool adapters) labels n) :
    n.system.server.chunkSize = chunkSize ∨
      ∃ capacity pool left, .restart n.system.server.chunkSize capacity pool left ∈ labels := by
  induction h with
  | refl => exact Or.inl rfl
  | @snoc before n₁ l n' _ _ hs ih =>
    have hsame : n'.system.server.chunkSize = n₁.system.server.chunkSize →
        n'.system.server.chunkSize = chunkSize ∨ ∃ capacity pool left,
          .restart n'.system.server.chunkSize capacity pool left ∈ before ++ [l] := fun heq => by
      rw [heq]
      exact ih.imp_right fun ⟨cap, pool, left, hl⟩ => ⟨cap, pool, left, List.mem_append_left _ hl⟩
    cases steps_of_step hs with
    | @run l s' hl hsys =>
      refine hsame ?_
      by_cases hhandler : ∃ t, l = .handler t
      · obtain ⟨t, rfl⟩ := hhandler
        obtain ⟨m, hd, srv', hd', -, hdoes, rfl⟩ := System.step_handler hsys
        exact Handler.chunkSize_of_does hdoes
      · exact (System.instances_step (fun t ht => hhandler ⟨t, ht⟩) hsys).2
    | take => exact hsame rfl
    | disk hl hfs hstep hsys =>
      exact hsame (System.answer_invariant (fun s => s.server.chunkSize = _) hsys rfl
        fun _ _ _ _ heq hstep => (System.instances_step (by rintro _ ⟨⟩) hstep).2.trans heq)
    | restart =>
      exact Or.inr ⟨_, _, _, List.mem_append_right _ (List.mem_singleton_self _)⟩

/-- A STORE is begun with the chunk size of its process. -/
theorem Began.chunkSize_eq {chunkSize capacity adapters : ℕ} {pool : ℕ → UInt8} {b : Begun}
    (h : Began blake3 (new chunkSize capacity pool adapters) labels b) :
    b.chunkSize = chunkSize ∨
      ∃ capacity pool left, .restart b.chunkSize capacity pool left ∈ labels := by
  obtain ⟨before, l, after, n₁, rfl, hrun, hmem⟩ := h
  cases l with
  | run l =>
    obtain ⟨t, m, p, inst, -, -, -, rfl⟩ := System.exists_of_mem_begins hmem
    exact (chunkSize_of_run hrun).imp_right fun ⟨cap, pool, left, hl⟩ =>
      ⟨cap, pool, left, List.mem_append_left _ hl⟩
  | _ => cases hmem

/-- Engine `A` has stored its KV blocks by the STORE ops of one request, in this process or an
earlier one, and nobody else has stored chunks of the keys that the RETRIEVE `p` asks for. `B`, of
the same model and rank, serves a request that shares the first `lmcache_hits` tokens. Then what is
sent to `B` puts into the blocks of its table, from the computed tokens on to the last hit, what `A`
had there, and changes no other block. -/
theorem kv_survives_restart {chunkSize capacity adapters : ℕ} {pool : ℕ → UInt8}
    (h : Run (step blake3) (Promised blake3 size) (new chunkSize capacity pool adapters) labels n)
    (hres : n.system.ViewsResident) (hpeers : A.Peers B)
    (hsize : n.system.server.chunkSize = B.connector.chunkSize) {tokens : List ℕ}
    (hnd : (chunkHashes blake3 tokens n.system.server.chunkSize).Nodup) {k : ℕ}
    (hk : A.connector.chunkSize ∣ k) {evs : List (StoreEvent A)} (hchain : StoreEvent.Chain k evs)
    (hevs : ∀ ev ∈ evs, ev.tracker.tokenIds <+: tokens) {tracker : RequestTracker}
    (hload : B.Loads tracker) (hle : tracker.lmcacheHits ≤ tokens.length)
    (hshare : tracker.tokenIds.take tracker.lmcacheHits = tokens.take tracker.lmcacheHits)
    {p : TransferPayload} (hop : (B.connector.generateRetrieveOp tracker).1 = some p.op)
    (hregistered : ∀ inst, Registers labels p.instanceId inst → inst = B.inst) {t : ℕ} {r : String}
    {keys : List ChunkKey} {objs : List MemoryObj}
    (hg : n.system.handlers.get? t = some (.retrieve p, .retrieveSend r keys objs))
    (hstored : ∀ b, Began blake3 (new chunkSize capacity pool adapters) labels b →
      ∀ key ∈ b.keys blake3, key ∈ n.system.server.opKeys blake3 p.op B.inst →
        ∃ ev ∈ evs, b = ⟨n.system.server.chunkSize, A.inst, ev.op, ev.chunks⟩)
    (kv : KVCache B.transfer.blockNbytes) :
    (B.finishLoad p.op (n.system.reply t)).2 = none ∧
    Engine.Restored evs tracker kv (kv.writeAll (B.finishLoad p.op (n.system.reply t)).1) := by
  obtain ⟨V, H, hshape⟩ := hload.shape hop
  have hstop : p.op.stop = tracker.lmcacheHits := hshape.stop.trans hshape.hits.symm
  have htokens : p.op.tokenIds.take p.op.stop = tokens.take p.op.stop := by
    rw [hshape.tokenIds, List.take_take, Nat.min_self, hstop, hshare]
  -- the keys are those of the op, for the engine that has registered
  obtain ⟨p', inst, hp', hreg, rfl⟩ := (heard_of_run h).reads t _ _ _ hg rfl
  cases hp'
  obtain rfl := hregistered inst hreg
  obtain ⟨hkeys, hcarried⟩ := sends_carried h hres hg
  have hsent : ∀ q ∈ n.system.sends (.handler t), ∃ ev ∈ evs,
      q ∈ (n.system.server.opKeys blake3 ev.op A.inst).zip ev.chunks := by
    intro q hq
    obtain ⟨b, hb, hqb⟩ := carried_began h rfl q (hcarried q hq)
    have hkey : q.1 ∈ n.system.server.opKeys blake3 p.op B.inst :=
      hkeys ▸ List.mem_map_of_mem hq
    obtain ⟨ev, hev, rfl⟩ := hstored b hb q.1 (List.of_mem_zip hqb).1 hkey
    exact ⟨ev, hev, hqb⟩
  have hframes := System.holds_of_stored hpeers hsize hnd
    (fun ev hev => ⟨(hchain.start hk ev hev).2, hevs ev hev⟩) htokens (hstop ▸ hle) hkeys hsent
  have hreply : (n.system.reply t).length =
      p.op.stop / B.connector.chunkSize - p.op.start / B.connector.chunkSize := by
    rw [System.reply, List.length_map, ← List.length_map Prod.fst, hkeys,
      n.system.server.length_opKeys B.inst htokens (hstop ▸ hle), hsize]
  exact hload.restored hpeers hop hk hchain hframes hreply kv

/-- The first process gets the two chunks of `sampleEvent` and writes them back. -/
def sampleStoreBack : List NodeLabel :=
  ([.recv 0 (.registerKvCache (Engine.sample.registerPayload 7)), .handler 0,
    .recv 1 (.store ⟨"a", 7, System.sampleEvent.op, System.sampleEvent.chunks⟩), .handler 1,
    .handler 1, .handler 1, .handler 1, .handler 1, .writeback, .writeback, .writeback] :
      List Label).map .run ++
  [.take 0, .disk 0 .next, .disk 0 (.write 4), .disk 0 .next, .disk 0 .next, .disk 0 .next,
    .disk 0 (.write 4), .disk 0 .next, .disk 0 .next, .disk 0 .next, .run .writeback]

/-- The next process looks the prompt up, loads both chunks, and gets the RETRIEVE. -/
def sampleLoadBack : List NodeLabel :=
  ([.recv 0 (.registerKvCache (Engine.sample.registerPayload 7)), .handler 0,
    .recv 2 (.lookup ⟨"b", [1, 2, 3, 4], "m", 1⟩), .handler 2, .handler 2, .handler 2,
    .worker, .worker, .worker] : List Label).map .run ++
  [.take 0, .disk 0 .next, .disk 0 .next, .disk 0 .next, .run .worker, .run .worker, .run .worker,
    .run .worker, .run .worker, .take 0, .disk 0 .next, .disk 0 .next, .disk 0 .next, .run .worker,
    .run .worker, .run .worker, .run .worker, .run .worker,
    .run (.recv 3 (.retrieve System.sampleRetrieve)), .run (.handler 3), .run (.handler 3)]

def sampleSurvival : List NodeLabel :=
  sampleStoreBack ++ .restart 2 8 (fun _ => 0) [] :: sampleLoadBack

/-- Request `b` of the second process finds the tokens 2 to 4 of request `a` of the first. -/
theorem kv_survives_restart_sample : ∃ n, replay (step System.sampleDigest)
      (fun n l => decide (n.Promised System.sampleDigest (fun _ => 4) l))
      (new 2 8 (fun _ => 0) 1) sampleSurvival = some n ∧
    n.system.server.carried = [] ∧
    (Engine.sample.finishLoad System.sampleRetrieve.op (n.system.reply 3)).2 = none ∧
    Engine.Restored [System.sampleEvent] sampleTracker sampleKV (sampleKV.writeAll
      (Engine.sample.finishLoad System.sampleRetrieve.op (n.system.reply 3)).1) := by
  have hrun : (replay (step System.sampleDigest)
      (fun n l => decide (n.Promised System.sampleDigest (fun _ => 4) l))
      (new 2 8 (fun _ => 0) 1) sampleSurvival).map (fun n =>
        (decide (n.system.server.carried = [] ∧ n.system.ViewsResident ∧
          n.system.server.chunkSize = 2), n.system.handlers.get? 3)) =
      some (true, some (.retrieve System.sampleRetrieve, .retrieveSend "b"
        (CacheServer.keysFor (chunkHashes System.sampleDigest [1, 2, 3, 4] 2) "m" [0])
        [⟨0, 4⟩, ⟨4, 4⟩])) := by decide
  obtain ⟨n, hn, he⟩ := Option.map_eq_some_iff.mp hrun
  simp only [Prod.mk.injEq, decide_eq_true_eq] at he
  obtain ⟨⟨hcarried, hres, hsize⟩, hg⟩ := he
  have hpeers : Engine.sample.Peers Engine.sample := ⟨rfl, rfl, rfl, rfl, rfl, rfl⟩
  have hnd : (chunkHashes System.sampleDigest [1, 2, 3, 4] n.system.server.chunkSize).Nodup := by
    rw [hsize]
    decide
  have hinst : ∀ i inst, Registers sampleSurvival i inst → inst = Engine.sample.inst := by
    rintro i inst ⟨t, p, hmem, -, rfl⟩
    simp [sampleSurvival, sampleStoreBack, sampleLoadBack] at hmem
    rw [hmem.2]
    rfl
  -- the one STORE of the run
  have hstored : ∀ b, Began System.sampleDigest (new 2 8 (fun _ => 0) 1) sampleSurvival b →
      b = ⟨2, Engine.sample.inst, System.sampleEvent.op, System.sampleEvent.chunks⟩ := by
    intro b hb
    obtain ⟨t, p, hmem, hreg, hop, hchunks⟩ := heard_began hb
    simp [sampleSurvival, sampleStoreBack, sampleLoadBack] at hmem
    have hc : b.chunkSize = 2 := by
      rcases hb.chunkSize_eq with hc | ⟨capacity, pool, left, hl⟩
      · exact hc
      · simp [sampleSurvival, sampleStoreBack, sampleLoadBack] at hl
        exact hl.1
    obtain ⟨chunkSize, inst, op, chunks⟩ := b
    rw [hmem.2] at hop hchunks
    obtain rfl : chunkSize = 2 := hc
    obtain rfl : inst = Engine.sample.inst := hinst _ _ hreg
    obtain rfl : op = System.sampleEvent.op := hop
    obtain rfl : chunks = System.sampleEvent.chunks := hchunks
    rfl
  have hchain : StoreEvent.Chain 0 [System.sampleEvent] := ⟨rfl, trivial⟩
  obtain ⟨hnone, hrestored⟩ := kv_survives_restart
    ((run_of_replay hn).mono fun _ _ hok => of_decide_eq_true hok) hres hpeers hsize hnd
    (Nat.dvd_zero _) hchain (by simp [System.sampleEvent]) sampleTracker_loads (by decide) rfl rfl
    (hinst 7) hg (fun b hb _ _ _ =>
      ⟨System.sampleEvent, List.mem_singleton_self _, hsize ▸ hstored b hb⟩) sampleKV
  exact ⟨n, hn, hcarried, hnone, hrestored⟩

end Node

end MiniLlmcache
