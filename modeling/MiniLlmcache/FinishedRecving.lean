import MiniLlmcache.WorkerConnector

/-!
# When a load is reported

`get_finished` reports a request in `finished_recving` when its reply has arrived and its event
is set, and vLLM goes on to read the blocks. The thread sets the event in a `finally`, so what
goes wrong before it does not show : a server exception, a reply without chunks, a chunk of the
wrong size, or an exception inside `from_host` is reported like a load (`failed_load_reported`).

The outcome of a load is its reply, and where something else made the thread raise.
`recving_overwritten_iff` : every run in which a load has this outcome reports it only after its
blocks have been overwritten with what the server returned, exactly if the server returned the
chunks of the op, no more and no less, each of the right size, and the thread did not raise. For
any other outcome there is a run that reports the load over blocks that are still the old ones
(`exists_run_of_outcome`).
-/

namespace MiniLlmcache

namespace KVTransfer

variable {t : KVTransfer}

theorem length_blockOf (chunk : Bytes) (layer j : ℕ) : (t.blockOf chunk layer j).length =
    min t.blockNbytes (chunk.length - (layer * t.blocksPerChunk + j) * t.blockNbytes) := by
  rw [blockOf, List.length_take, List.length_drop]

theorem length_hostBuf {chunk buf : Bytes} (h : t.hostBuf chunk = some buf) :
    buf.length = t.chunkNbytes ∧ (chunk.length = t.chunkNbytes ∨ chunk.length = 1) := by
  unfold hostBuf at h
  split_ifs at h with hlen
  · cases h
    exact ⟨hlen, Or.inl hlen⟩
  · split at h
    · cases h
      exact ⟨List.length_replicate, Or.inr rfl⟩
    · cases h

/-- The last block of a chunk ends where the chunk ends. -/
theorem last_place (t : KVTransfer) (hpos : 0 < t.blocksPerChunk) :
    ((t.numLayers - 1) * t.blocksPerChunk + (t.blocksPerChunk - 1)) * t.blockNbytes +
      t.blockNbytes = t.chunkNbytes := by
  have hlayer := t.layers_pos
  rw [← Nat.succ_mul, chunkNbytes]
  congr 1
  rw [Nat.sub_mul, Nat.one_mul]
  have := Nat.le_mul_of_pos_left t.blocksPerChunk hlayer
  omega

theorem length_blockOf_of_lt {chunk : Bytes} (hlen : chunk.length = t.chunkNbytes) {layer j : ℕ}
    (hl : layer < t.numLayers) (hj : j < t.blocksPerChunk) :
    (t.blockOf chunk layer j).length = t.blockNbytes := by
  have hle := Nat.mul_le_mul_right t.blockNbytes (Nat.succ_le_of_lt (place_lt hl hj))
  rw [Nat.succ_mul, ← chunkNbytes, ← hlen] at hle
  rw [length_blockOf]
  omega

/-- A chunk whose last block is a whole one has the right size, if it fits the host buffer. -/
theorem length_of_last {chunk buf : Bytes} (hpos : 0 < t.blocksPerChunk)
    (hbytes : 0 < t.blockNbytes) (hbuf : t.hostBuf chunk = some buf)
    (hlast : (t.blockOf chunk (t.numLayers - 1) (t.blocksPerChunk - 1)).length = t.blockNbytes) :
    chunk.length = t.chunkNbytes := by
  have hplace := t.last_place hpos
  rw [length_blockOf] at hlast
  rcases (length_hostBuf hbuf).2 with hlen | hlen
  · exact hlen
  · omega

end KVTransfer

namespace Engine

/-- Every KV block of the token range `[start + skip_first_n_tokens, end)` has been overwritten,
in every layer, with the bytes returned for it. -/
def Overwritten (e : Engine) (op : LoadStoreOp) (reply : RetrieveReply)
    (written : List BlockWrite) : Prop :=
  ∃ chunks, reply = .ok (some chunks) ∧ ∀ layer < e.transfer.numLayers, ∀ b,
    op.start + op.skipFirstNTokens ≤ b * e.connector.blockSize →
    b * e.connector.blockSize < op.stop →
    ∃ id chunk, op.blockIds[b - op.start / e.connector.blockSize]? = some id ∧
      chunks[b / e.transfer.blocksPerChunk - op.start / e.connector.chunkSize]? = some chunk ∧
      ⟨layer, id, e.transfer.blockOf chunk layer (b % e.transfer.blocksPerChunk)⟩ ∈ written

/-- The server returned the chunks of the op, each of `chunk_nbytes` bytes. -/
def Delivered (e : Engine) (op : LoadStoreOp) (reply : RetrieveReply) : Prop :=
  ∃ chunks, reply = .ok (some chunks) ∧
    chunks.length = (op.stop - op.start) / e.connector.chunkSize ∧
    ∀ chunk ∈ chunks, chunk.length = e.transfer.chunkNbytes

/-- The rows a `_finish_load` thread issues for a reply, and what `from_host` raises then. -/
def scatter (e : Engine) (op : LoadStoreOp) : RetrieveReply → List BlockWrite × Option Exc
  | .ok (some chunks) => e.finishLoad op chunks
  | _ => ([], none)

/-- Something else makes the thread raise after that many rows, or nothing does. -/
def CanRaise (e : Engine) (op : LoadStoreOp) (reply : RetrieveReply) (raised : Option ℕ) : Prop :=
  ∀ n ∈ raised, n ≤ (e.scatter op reply).1.length

section

variable {e : Engine} {tracker : RequestTracker} {op : LoadStoreOp} {V H : ℕ}

/-- The range and the chunks of an op, in blocks. -/
theorem LoadShape.range (h : e.LoadShape tracker op V H) :
    (∀ b, (op.start + op.skipFirstNTokens ≤ b * e.connector.blockSize ↔ V ≤ b) ∧
      (b * e.connector.blockSize < op.stop ↔ b < H * e.transfer.blocksPerChunk)) ∧
    op.start / e.connector.blockSize =
      V / e.transfer.blocksPerChunk * e.transfer.blocksPerChunk ∧
    op.start / e.connector.chunkSize = V / e.transfer.blocksPerChunk ∧
    (op.stop - op.start) / e.connector.chunkSize = H - V / e.transfer.blocksPerChunk := by
  have hbs := e.connector.blockSize_pos
  have hmul : e.transfer.blocksPerChunk * e.connector.blockSize = e.connector.chunkSize :=
    e.blocksPerChunk ▸ e.connector.blocksPerChunk_mul
  refine ⟨fun b => ⟨?_, ?_⟩, ?_, ?_, ?_⟩
  · rw [h.start, h.skip, ← hmul, ← Nat.mul_assoc, ← Nat.add_mul, Nat.div_add_mod']
    exact ⟨fun hle => Nat.le_of_mul_le_mul_right hle hbs, fun hle => Nat.mul_le_mul_right _ hle⟩
  · rw [h.stop, ← hmul, ← Nat.mul_assoc]
    exact Nat.mul_lt_mul_right hbs
  · rw [h.start, MiniConnector.mul_chunkSize_div, ← e.blocksPerChunk]
  · rw [h.start, Nat.mul_div_cancel _ e.connector.chunkSize_pos]
  · rw [h.start, h.stop, ← Nat.sub_mul, Nat.mul_div_cancel _ e.connector.chunkSize_pos]

/-- Where a block of the range stands in the op. -/
theorem place_sub {n V b : ℕ} (hle : V ≤ b) :
    b - V / n * n = (b / n - V / n) * n + b % n := by
  have hb := Nat.div_add_mod' b n
  have hrow := Nat.mul_le_mul_right n (Nat.div_le_div_right (c := n) hle)
  rw [Nat.sub_mul]
  omega

/-- If the last block of chunk `k` has been overwritten with what the server returned for it, the
server returned chunk `k`, and it has the right size. -/
theorem LoadShape.chunk_of_last (h : e.LoadShape tracker op V H)
    (hbytes : 0 < e.transfer.blockNbytes) {chunks : List Bytes} {k : ℕ}
    (hk : k < H - V / e.transfer.blocksPerChunk)
    (hlast : ∀ b, V ≤ b → b < H * e.transfer.blocksPerChunk → ∃ id chunk,
      op.blockIds[b - V / e.transfer.blocksPerChunk * e.transfer.blocksPerChunk]? = some id ∧
      chunks[b / e.transfer.blocksPerChunk - V / e.transfer.blocksPerChunk]? = some chunk ∧
      ⟨e.transfer.numLayers - 1, id, e.transfer.blockOf chunk (e.transfer.numLayers - 1)
        (b % e.transfer.blocksPerChunk)⟩ ∈ (e.transfer.fromHost chunks op.blockIds
          (V % e.transfer.blocksPerChunk)).1) :
    ∃ chunk, chunks[k]? = some chunk ∧ chunk.length = e.transfer.chunkNbytes := by
  have hpos := e.blocksPerChunk_pos
  have hskip := Nat.mod_lt V hpos
  have hend : e.transfer.blocksPerChunk - 1 < e.transfer.blocksPerChunk := by omega
  -- the last token block of the chunk
  obtain ⟨b, hb⟩ : ∃ b, b = (V / e.transfer.blocksPerChunk + k) * e.transfer.blocksPerChunk +
    (e.transfer.blocksPerChunk - 1) := ⟨_, rfl⟩
  have hrow : b / e.transfer.blocksPerChunk = V / e.transfer.blocksPerChunk + k :=
    hb ▸ row_of_place hend
  have hmod : b % e.transfer.blocksPerChunk = e.transfer.blocksPerChunk - 1 := by
    rw [hb, Nat.mul_add_mod_of_lt hend]
  have hle : V ≤ b := by
    rw [hb]
    refine KVTransfer.le_of_skipOf hpos ?_
    unfold KVTransfer.skipOf
    split_ifs <;> omega
  have hlt : b < H * e.transfer.blocksPerChunk := by
    rw [hb]
    exact place_lt (by omega) hend
  obtain ⟨id, chunk, hid, hchunk, hw⟩ := hlast b hle hlt
  obtain ⟨i, chunk', buf, -, hchunk', hbuf, -, layer, j, id', hl, -, hj, hid', heq⟩ :=
    (KVTransfer.mem_fromHost_iff h.length h.bounded hskip).mp hw
  obtain ⟨-, rfl, hdata⟩ := BlockWrite.mk.inj heq
  -- its id has one place, so the row written came from this chunk
  rw [place_sub hle] at hid
  have hplace := (List.getElem?_inj (List.getElem?_eq_some_iff.mp hid).1 h.nodup).mp
    (hid.trans hid'.symm)
  obtain ⟨rfl, -⟩ := place_inj (Nat.mod_lt b hpos) hj hplace
  rw [hchunk] at hchunk'
  cases hchunk'
  rw [hrow, Nat.add_sub_cancel_left] at hchunk
  refine ⟨chunk, hchunk, KVTransfer.length_of_last hpos hbytes hbuf ?_⟩
  rw [← hmod, hdata]
  exact KVTransfer.length_blockOf_of_lt (KVTransfer.length_hostBuf hbuf).1 hl hj

/-- What is issued for a reply covers the range, and `from_host` does not raise, exactly when the
reply has the chunks of the op, of the right size. -/
theorem delivered_iff (hop : e.RetrieveOp op) (hbytes : 0 < e.transfer.blockNbytes)
    (reply : RetrieveReply) : e.Delivered op reply ↔
      e.Overwritten op reply (e.scatter op reply).1 ∧ (e.scatter op reply).2 = none := by
  obtain ⟨tracker, hload, hop⟩ := hop
  obtain ⟨V, H, hshape⟩ := hload.shape hop
  obtain ⟨hrange, hstart, hfirst, hcount⟩ := hshape.range
  have hpos := e.blocksPerChunk_pos
  have hskip := Nat.mod_lt V hpos
  unfold Overwritten Delivered
  simp only [hrange, hstart, hfirst, hcount]
  rw [← exists_and_right]
  refine exists_congr fun chunks => Iff.trans (and_congr_right fun hreply => ?_) and_assoc.symm
  subst hreply
  rw [scatter, hshape.finishLoad_eq,
    KVTransfer.fromHost_returns_iff hshape.length hshape.bounded hskip]
  constructor
  · rintro ⟨hcount, hsize⟩
    have hfits : ∀ k c, chunks[k]? = some c → e.transfer.hostBuf c = some c := fun k c hc =>
      KVTransfer.hostBuf_of_length (hsize c (List.mem_of_getElem? hc))
    refine ⟨fun layer hl b hle hlt => ?_, hcount.le, fun c hc => ?_⟩
    · obtain ⟨-, hi, hnot, hat⟩ := hshape.place hle hlt
      obtain ⟨id, hid⟩ : ∃ id, tracker.blockIds[b]? = some id :=
        ⟨_, List.getElem?_eq_getElem (hlt.trans_le hshape.covers)⟩
      obtain ⟨chunk, hchunk⟩ : ∃ chunk, chunks[b / e.transfer.blocksPerChunk -
        V / e.transfer.blocksPerChunk]? = some chunk :=
        ⟨_, List.getElem?_eq_getElem (hi.trans_eq hcount.symm)⟩
      refine ⟨id, chunk, ?_, hchunk, ?_⟩
      · rw [place_sub hle, hat, hid]
      · refine (KVTransfer.mem_fromHost_iff hshape.length hshape.bounded hskip).mpr
          ⟨_, chunk, chunk, hi, hchunk, hfits _ _ hchunk, fun k _ c hc => ?_, ?_⟩
        · rw [hfits k c hc]
          rfl
        · exact ⟨layer, _, id, hl, hnot, Nat.mod_lt b hpos, hat.trans hid, rfl⟩
    · obtain ⟨k, hk⟩ := List.mem_iff_getElem?.mp hc
      rw [hfits k c hk]
      rfl
  · rintro ⟨h, hle, -⟩
    have hchunk : ∀ k < H - V / e.transfer.blocksPerChunk, ∃ chunk, chunks[k]? = some chunk ∧
        chunk.length = e.transfer.chunkNbytes := fun k hk =>
      hshape.chunk_of_last hbytes hk (h _ (Nat.sub_lt e.transfer.layers_pos Nat.one_pos))
    have hcount : chunks.length = H - V / e.transfer.blocksPerChunk := by
      by_contra hne
      obtain ⟨chunk, hget, -⟩ := hchunk chunks.length (by omega)
      exact (Nat.lt_irrefl _ (List.getElem?_eq_some_iff.mp hget).1).elim
    refine ⟨hcount, fun chunk hmem => ?_⟩
    obtain ⟨k, hk⟩ := List.mem_iff_getElem?.mp hmem
    obtain ⟨chunk', hget, hlen⟩ := hchunk k (hcount ▸ (List.getElem?_eq_some_iff.mp hk).1)
    rw [hget] at hk
    cases hk
    exact hlen

/-- The range of a load is not empty. -/
theorem not_overwritten_nil (hop : e.RetrieveOp op) (reply : RetrieveReply) :
    ¬e.Overwritten op reply [] := by
  obtain ⟨tracker, hload, hop⟩ := hop
  obtain ⟨V, H, hshape⟩ := hload.shape hop
  rintro ⟨chunks, -, hall⟩
  obtain ⟨id, chunk, -, -, hmem⟩ := hall 0 e.transfer.layers_pos V
    ((hshape.range.1 V).1.mpr le_rfl) ((hshape.range.1 V).2.mpr hshape.lt)
  cases hmem

end

end Engine

/-! ## Loads in flight -/

namespace LoadCall

/-- A thread that ended by itself, and in which `from_host` did not raise, has had all rows
written. -/
def Ended (e : Engine) (l : LoadCall) : Prop :=
  match l.reply with
  | none => l.raised = some 0
  | some reply => e.CanRaise l.op reply l.raised ∧
    (l.raised = none → (e.scatter l.op reply).2 = none →
      l.inFlight = [] ∧ l.written = (e.scatter l.op reply).1)

/-- Where a RETRIEVE stands : what is issued for it, and what its thread has left, is what the
reply gives it. -/
def Agrees (e : Engine) (l : LoadCall) : Prop :=
  match l.thread with
  | .waiting => l.issued = [] ∧ l.raised = none
  | .scatter todo exc => l.raised = none ∧
    ∃ reply, l.reply = some reply ∧ e.scatter l.op reply = (l.issued ++ todo, exc)
  | .synchronize => l.raised = none ∧
    ∃ reply, l.reply = some reply ∧ e.scatter l.op reply = (l.issued, none)
  | .ending | .done => l.Ended e

variable {e : Engine} {l : LoadCall}

theorem Ended.replied (h : l.Ended e) (hnone : l.reply = none) (reply : RetrieveReply) :
    LoadCall.Ended e { l with reply := some reply } := by
  rw [Ended, hnone] at h
  have hraised : l.raised = some 0 := h
  refine ⟨fun n hn => ?_, fun hno => ?_⟩
  · rw [hraised] at hn
    cases hn
    exact Nat.zero_le _
  · cases hraised.symm.trans hno

theorem ended_of_not_raised {reply : RetrieveReply} (hr : l.reply = some reply)
    (hraised : l.raised = none) (h : (e.scatter l.op reply).2 = none →
      l.inFlight = [] ∧ l.written = (e.scatter l.op reply).1) :
    LoadCall.Ended e { l with thread := .ending } := by
  rw [Ended, hr]
  refine ⟨fun n hn => ?_, fun _ => h⟩
  rw [hraised] at hn
  cases hn

/-- What a thread has issued when it raises is a part of what the reply gives it. -/
theorem Agrees.raised (h : l.Agrees e) (ht : l.thread ≠ .ending ∧ l.thread ≠ .done) :
    LoadCall.Ended e { l with thread := .ending, raised := some l.issued.length } := by
  have hlen : (l.reply = none → l.issued = []) ∧ ∀ reply, l.reply = some reply →
      l.issued.length ≤ (e.scatter l.op reply).1.length := by
    unfold Agrees at h
    split at h
    · rw [h.1]
      exact ⟨fun _ => rfl, fun _ _ => Nat.zero_le _⟩
    · obtain ⟨-, reply, hr, hrows⟩ := h
      rw [hr]
      refine ⟨nofun, fun reply' h => ?_⟩
      cases h
      rw [hrows, List.length_append]
      exact Nat.le_add_right _ _
    · obtain ⟨-, reply, hr, hrows⟩ := h
      rw [hr]
      refine ⟨nofun, fun reply' h => ?_⟩
      cases h
      rw [hrows]
    · exact absurd ‹_› ht.1
    · exact absurd ‹_› ht.2
  unfold Ended
  split
  · rw [hlen.1 ‹_›]
    rfl
  · refine ⟨fun n hn => ?_, nofun⟩
    cases hn
    exact hlen.2 _ ‹_›

/-- A row that is written stays issued. -/
theorem Agrees.wrote (h : l.Agrees e) {x : BlockWrite} {rest : List BlockWrite}
    (hf : l.inFlight = x :: rest) :
    LoadCall.Agrees e { l with inFlight := rest, written := l.written ++ [x] } := by
  have hissued : LoadCall.issued { l with inFlight := rest, written := l.written ++ [x] } =
      l.issued := by
    simp only [issued, hf, List.append_assoc, List.singleton_append]
  have hended : l.Ended e →
      LoadCall.Ended e { l with inFlight := rest, written := l.written ++ [x] } := by
    unfold Ended
    dsimp only
    cases l.reply with
    | none => exact id
    | some reply =>
      rintro ⟨hcan, hdone⟩
      refine ⟨hcan, fun hraised hnone => ?_⟩
      rw [(hdone hraised hnone).1] at hf
      cases hf
  unfold Agrees at h ⊢
  rw [hissued]
  revert h
  cases l.thread with
  | waiting | scatter todo exc | synchronize => exact id
  | ending | done => exact hended

end LoadCall

namespace WorkerConnector

variable {e : Engine} {w w' : WorkerConnector e}

theorem Moves.agrees {l l' : LoadCall} (h : Moves e l l') (hl : l.Agrees e) : l'.Agrees e := by
  cases h with
  | replied reply hnone =>
    revert hl
    unfold LoadCall.Agrees
    cases l.thread with
    | waiting => exact id
    | scatter todo exc | synchronize =>
      rintro ⟨-, reply, hreply, -⟩
      rw [hnone] at hreply
      cases hreply
    | ending | done => exact fun hl => hl.replied hnone reply
  | scatter ht hr =>
    rw [LoadCall.Agrees, ht] at hl
    obtain ⟨hissued, hraised⟩ := hl
    refine ⟨hraised, _, hr, ?_⟩
    show _ = (l.issued ++ _, _)
    rw [hissued]
    rfl
  | @caught reply ht hr hno =>
    rw [LoadCall.Agrees, ht] at hl
    obtain ⟨hissued, hraised⟩ := hl
    obtain ⟨hw, hf⟩ := List.append_eq_nil_iff.mp hissued
    have hrows : e.scatter l.op reply = ([], none) := by
      rcases reply with x | _ | chunks
      · rfl
      · rfl
      · exact absurd rfl (hno chunks)
    exact LoadCall.ended_of_not_raised hr hraised fun _ => ⟨hf, hw.trans (by rw [hrows])⟩
  | issued ht =>
    rw [LoadCall.Agrees, ht] at hl
    obtain ⟨hraised, reply, hr, hrows⟩ := hl
    refine ⟨hraised, reply, hr, hrows.trans ?_⟩
    simp only [LoadCall.issued, List.append_assoc, List.singleton_append]
  | failed ht =>
    rw [LoadCall.Agrees, ht] at hl
    obtain ⟨hraised, reply, hr, hrows⟩ := hl
    refine LoadCall.ended_of_not_raised hr hraised fun hnone => ?_
    rw [hrows] at hnone
    cases hnone
  | scattered ht =>
    rw [LoadCall.Agrees, ht] at hl
    obtain ⟨hraised, reply, hr, hrows⟩ := hl
    exact ⟨hraised, reply, hr, hrows.trans (by rw [List.append_nil]; rfl)⟩
  | synchronized ht hf =>
    rw [LoadCall.Agrees, ht] at hl
    obtain ⟨hraised, reply, hr, hrows⟩ := hl
    refine LoadCall.ended_of_not_raised hr hraised fun _ => ⟨hf, ?_⟩
    rw [hrows, LoadCall.issued, hf, List.append_nil]
  | ended ht =>
    rw [LoadCall.Agrees, ht] at hl
    exact hl
  | raised ht => exact hl.raised ht
  | wrote hf => exact hl.wrote hf

theorem Does.agrees {lab : WorkerLabel} (h : ∀ l ∈ w.loads, l.Agrees e) (hs : w.Does lab w') :
    ∀ l ∈ w'.loads, l.Agrees e := by
  intro l' hmem
  obtain ⟨i, hi⟩ := List.mem_iff_getElem?.mp hmem
  rcases hs.load hi with hsame | ⟨m, -, -, x, -, rfl⟩ | ⟨l, hl, hm⟩
  · exact h l' (List.mem_of_getElem? hsame)
  · exact ⟨rfl, rfl⟩
  · exact hm.agrees (h l (List.mem_of_getElem? hl))

/-- Every RETRIEVE is one the connector generates. -/
theorem Does.retrieveOp {lab : WorkerLabel} (h : ∀ l ∈ w.loads, e.RetrieveOp l.op)
    (hgen : lab.Generated e) (hs : w.Does lab w') : ∀ l ∈ w'.loads, e.RetrieveOp l.op := by
  intro l' hmem
  obtain ⟨i, hi⟩ := List.mem_iff_getElem?.mp hmem
  rcases hs.load hi with hsame | ⟨m, rfl, -, x, hx, rfl⟩ | ⟨l, hl, hm⟩
  · exact h l' (List.mem_of_getElem? hsame)
  · exact hgen x (List.mem_of_getElem? hx)
  · exact hm.requestId_eq.2 ▸ h l (List.mem_of_getElem? hl)

/-- A RETRIEVE is submitted for a request that has none in `load_futures`. -/
def Fresh (w : WorkerConnector e) : WorkerLabel → Prop
  | .startLoadKv m => ∀ x ∈ opsOf .retrieve m.requests, w.loadFutures.get? x.requestId = none
  | _ => True

instance (w : WorkerConnector e) (lab : WorkerLabel) : Decidable (w.Fresh lab) := by
  cases lab <;> unfold Fresh <;> infer_instance

/-- `load_futures` has every RETRIEVE that is not done. -/
def TracksLoads (w : WorkerConnector e) : Prop :=
  ∀ i l, w.loads[i]? = some l → l.done = false → w.loadFutures.get? l.requestId = some i

/-- `get_finished` keeps the futures that are not done. -/
theorem get?_loadFutures_getFinished {ids : Finset String} {r : String} {i : ℕ} :
    (w.getFinished ids).2.loadFutures.get? r = some i ↔
      w.loadFutures.get? r = some i ∧ w.loadDone i = false := by
  refine (OrderedDict.get?_prune w.loadFutures _ r) ▸ ?_
  rw [Option.bind_eq_some_iff]
  constructor
  · rintro ⟨j, hj, hdone⟩
    split_ifs at hdone with hd
    cases hdone
    exact ⟨hj, Bool.eq_false_iff.mpr hd⟩
  · rintro ⟨hi, hd⟩
    exact ⟨i, hi, by rw [hd]; rfl⟩

theorem Does.tracksLoads {lab : WorkerLabel} (h : w.TracksLoads) (hfresh : w.Fresh lab)
    (hs : w.Does lab w') : w'.TracksLoads := by
  intro i l' hi hd
  -- what was tracked before the step, and is not done after it
  have hold : ∀ l, w.loads[i]? = some l → (l' = l ∨ Moves e l l') →
      w.loadFutures.get? l'.requestId = some i := by
    rintro l hl (rfl | hm)
    · exact h i _ hl hd
    · refine hm.requestId_eq.1 ▸ h i l hl ?_
      rw [← Bool.not_eq_true] at hd ⊢
      exact fun hdone => hd (hm.done hdone)
  cases hs with
  | startLoadKv m =>
    have hnodup : (((opsOf .retrieve m.requests).map ReqMeta.requestId).zipIdx
        w.loads.length).map Prod.fst = (opsOf .retrieve m.requests).map ReqMeta.requestId :=
      List.zipIdx_map_fst _ _
    have hfree : ∀ l, w.loads[i]? = some l → l.done = false → l.requestId ∉
        (((opsOf .retrieve m.requests).map ReqMeta.requestId).zipIdx w.loads.length).map
          Prod.fst := by
      intro l hl hd hmem
      obtain ⟨x, hx, heq⟩ := List.mem_map.mp (hnodup ▸ hmem)
      have hnone := hfresh x hx
      rw [heq, h i l hl hd] at hnone
      cases hnone
    rcases Does.load (.startLoadKv m) hi with hsame | ⟨_, hlab, hle, x, hx, rfl⟩ | ⟨l, hl, hm⟩
    · exact (OrderedDict.get?_setAll_of_not_mem _ (hfree _ hsame hd)).trans
        (hold _ hsame (Or.inl rfl))
    · cases hlab
      refine OrderedDict.get?_setAll_of_mem _ ?_ ?_
      · rw [hnodup]
        exact m.nodup .retrieve
      · rw [List.mk_mem_zipIdx_iff_le_and_getElem?_sub, List.getElem?_map, hx]
        exact ⟨hle, rfl⟩
    · have hlt : i < w.loads.length := (List.getElem?_eq_some_iff.mp hl).1
      rw [WorkerConnector.startLoadKv, List.getElem?_append_left hlt, hl] at hi
      cases hi
      exact (OrderedDict.get?_setAll_of_not_mem _ (hfree _ hl hd)).trans (hold _ hl (Or.inl rfl))
  | getFinished ids =>
    have hget : w.loads[i]? = some l' := hi
    have hdone : w.loadDone i = false := by rw [loadDone, hget, Option.any_some, hd]
    exact get?_loadFutures_getFinished.mpr ⟨hold l' hget (Or.inl rfl), hdone⟩
  | loadReply reply hget hnone =>
    rcases Does.load (.loadReply reply hget hnone) hi with hsame | ⟨m, hlab, -⟩ | ⟨l, hl, hm⟩
    · exact hold _ hsame (Or.inl rfl)
    · cases hlab
    · exact hold l hl (Or.inr hm)
  | finishLoad hget hm =>
    rcases Does.load (.finishLoad hget hm) hi with hsame | ⟨m, hlab, -⟩ | ⟨l, hl, hm⟩
    · exact hold _ hsame (Or.inl rfl)
    · cases hlab
    · exact hold l hl (Or.inr hm)
  | raises hget hm =>
    rcases Does.load (.raises hget hm) hi with hsame | ⟨m, hlab, -⟩ | ⟨l, hl, hm⟩
    · exact hold _ hsame (Or.inl rfl)
    · cases hlab
    · exact hold l hl (Or.inr hm)
  | kernel kv hget hm =>
    rcases Does.load (.kernel kv hget hm) hi with hsame | ⟨m, hlab, -⟩ | ⟨l, hl, hm⟩
    · exact hold _ hsame (Or.inl rfl)
    · cases hlab
    · exact hold l hl (Or.inr hm)
  | _ => exact hold _ hi (Or.inl rfl)

/-- The steps of runs with the operations of the connector, one RETRIEVE of a request at a time. -/
def OneLoad (w : WorkerConnector e) (lab : WorkerLabel) : Prop := lab.Generated e ∧ w.Fresh lab

/-- What such runs keep. -/
structure LoadInv (w : WorkerConnector e) : Prop where
  retrieveOp : ∀ l ∈ w.loads, e.RetrieveOp l.op
  agrees : ∀ l ∈ w.loads, l.Agrees e
  tracks : w.TracksLoads

theorem LoadInv.step {lab : WorkerLabel} (h : w.LoadInv) (hok : w.OneLoad lab)
    (hs : w.Does lab w') : w'.LoadInv where
  retrieveOp := hs.retrieveOp h.retrieveOp hok.1
  agrees := hs.agrees h.agrees
  tracks := hs.tracksLoads h.tracks hok.2

/-- A state that such a run reaches. -/
def OneLoadReachable (w : WorkerConnector e) : Prop :=
  ∃ kv labs, Run WorkerConnector.step OneLoad (new kv) labs w

theorem OneLoadReachable.loadInv (h : w.OneLoadReachable) : w.LoadInv := by
  obtain ⟨kv, labs, hrun⟩ := h
  refine hrun.invariant LoadInv ⟨?_, ?_, ?_⟩ fun _ _ _ hi hok hs => hi.step hok (does_of_step hs)
  · exact fun l hl => absurd hl List.not_mem_nil
  · exact fun l hl => absurd hl List.not_mem_nil
  · intro i l hi
    cases hi

/-- A RETRIEVE that is done has an outcome; if its thread ended by itself, and `from_host` did not
raise, its rows have been written. -/
theorem LoadInv.outcome_of_done (h : w.LoadInv) {l : LoadCall} (hl : l ∈ w.loads)
    (hd : l.done = true) : ∃ reply, l.reply = some reply ∧ e.CanRaise l.op reply l.raised ∧
      (l.raised = none → (e.scatter l.op reply).2 = none →
        l.written = (e.scatter l.op reply).1) := by
  rw [LoadCall.done, Bool.and_eq_true, decide_eq_true_eq] at hd
  obtain ⟨reply, hreply⟩ := Option.isSome_iff_exists.mp hd.1
  have hended : l.Ended e := by
    have hagrees := h.agrees l hl
    rwa [LoadCall.Agrees, hd.2] at hagrees
  rw [LoadCall.Ended, hreply] at hended
  exact ⟨reply, hreply, hended.1, fun hraised hnone => (hended.2 hraised hnone).2⟩

/-- All RETRIEVEs of a request that is reported are done. -/
theorem LoadInv.done_of_mem_recving (h : w.LoadInv) {ids : Finset String} {r : String}
    (hr : r ∈ (w.getFinished ids).1.2) {l : LoadCall} (hl : l ∈ w.loads)
    (hreq : l.requestId = r) : l.done = true := by
  obtain ⟨i, hi⟩ := List.mem_iff_getElem?.mp hl
  have hdone := (List.mem_filter.mp (List.mem_toFinset.mp hr)).2
  by_contra hd
  rw [Bool.not_eq_true] at hd
  rw [← hreq, h.tracks i l hi hd, Option.any_some, loadDone, hi, Option.any_some, hd] at hdone
  cases hdone

/-- What `get_finished` reports as loaded. -/
theorem mem_recving {ids : Finset String} {r : String} : r ∈ (w.getFinished ids).1.2 ↔
    ∃ i, w.loadFutures.get? r = some i ∧ w.loadDone i = true := by
  simp only [getFinished, List.mem_toFinset, List.mem_filter, OrderedDict.mem_keys_iff]
  constructor
  · rintro ⟨⟨i, hi⟩, hdone⟩
    rw [hi, Option.any_some] at hdone
    exact ⟨i, hi, hdone⟩
  · rintro ⟨i, hi, hdone⟩
    exact ⟨⟨i, hi⟩, by rwa [hi, Option.any_some]⟩

/-! ## Every outcome comes about

One request loads, and the device is late : it writes nothing before the thread waits for it. -/

/-- Request `a` loads `op`. -/
def loading (op : LoadStoreOp) : Metadata where
  requests := [⟨"a", .retrieve, op⟩]
  nodup req := by cases req <;> simp [opsOf]

/-- That RETRIEVE is where `l` says. -/
def single (kv : KVCache e.transfer.blockNbytes) (l : LoadCall) : WorkerConnector e :=
  { (new kv).startLoadKv (loading l.op) with loads := [l] }

section

variable (kv : KVCache e.transfer.blockNbytes) {op : LoadStoreOp} {reply : RetrieveReply}

theorem oneLoad_finishLoad {i : ℕ} : w.OneLoad (.finishLoad i) := ⟨trivial, trivial⟩

theorem run_issue {exc : Option Exc} {rows todo : List BlockWrite} :
    ∀ xs f, Run step OneLoad
      (single kv ⟨"a", op, some reply, .scatter (xs ++ todo) exc, f, rows, none⟩)
      (List.replicate xs.length (.finishLoad 0))
      (single kv ⟨"a", op, some reply, .scatter todo exc, f ++ xs, rows, none⟩)
  | [], f => by
    rw [List.append_nil]
    exact .refl
  | x :: xs, f => by
    rw [← List.singleton_append, ← List.append_assoc]
    exact .cons ⟨trivial, trivial⟩ rfl (run_issue xs (f ++ [x]))

theorem run_kernel : ∀ (xs rows : List BlockWrite) (kv : KVCache e.transfer.blockNbytes),
    ∃ kv', Run step OneLoad
      (single kv ⟨"a", op, some reply, .synchronize, xs, rows, none⟩)
      (List.replicate xs.length (.kernel 0))
      (single kv' ⟨"a", op, some reply, .synchronize, [], rows ++ xs, none⟩)
  | [], rows, kv => by
    rw [List.append_nil]
    exact ⟨kv, .refl⟩
  | x :: xs, rows, kv => by
    obtain ⟨kv', ih⟩ := run_kernel xs (rows ++ [x]) (kv.write x)
    rw [List.append_assoc, List.singleton_append] at ih
    exact ⟨kv', .cons ⟨trivial, trivial⟩ rfl ih⟩

theorem run_replied (hop : e.RetrieveOp op) (reply : RetrieveReply) :
    Run step OneLoad (new kv) [.startLoadKv (loading op), .loadReply 0 reply]
      (single kv ⟨"a", op, some reply, .waiting, [], [], none⟩) := by
  refine .cons ⟨fun x hx => ?_, fun x _ => rfl⟩ rfl (.cons ⟨trivial, trivial⟩ rfl .refl)
  obtain rfl := List.mem_singleton.mp hx
  exact hop

/-- The thread ends, and the load is reported. -/
theorem reported_of_ending {kv₀ : KVCache e.transfer.blockNbytes} {labs : List WorkerLabel}
    {f rows : List BlockWrite} {raised : Option ℕ} (h : Run step OneLoad (new kv₀) labs
      (single kv ⟨"a", op, some reply, .ending, f, rows, raised⟩)) :
    ∃ w : WorkerConnector e, w.OneLoadReachable ∧
      ∃ l ∈ w.loads, l.requestId ∈ (w.getFinished ∅).1.2 ∧ l.op = op ∧ l.reply = some reply ∧
        l.raised = raised ∧ l.written = rows :=
  ⟨single kv ⟨"a", op, some reply, .done, f, rows, raised⟩,
    ⟨kv₀, _, h.snoc (oneLoad_finishLoad (i := 0)) rfl⟩, _, List.mem_singleton_self _,
    mem_recving.mpr ⟨0, rfl, rfl⟩, rfl, rfl, rfl, rfl⟩

/-- Whatever the outcome, some run reports the load. Its rows have been written when the thread
had to wait for them, and otherwise none has. -/
theorem exists_run_of_outcome (kv : KVCache e.transfer.blockNbytes) (hop : e.RetrieveOp op)
    {raised : Option ℕ} (hcan : e.CanRaise op reply raised) :
    ∃ w : WorkerConnector e, w.OneLoadReachable ∧
      ∃ l ∈ w.loads, l.requestId ∈ (w.getFinished ∅).1.2 ∧ l.op = op ∧ l.reply = some reply ∧
        l.raised = raised ∧ l.written =
          if raised = none ∧ (e.scatter op reply).2 = none then (e.scatter op reply).1 else [] := by
  have hstart := run_replied kv hop reply
  have hok : ∀ {w : WorkerConnector e}, w.OneLoad (.finishLoad 0) := oneLoad_finishLoad
  have hraises : ∀ {w : WorkerConnector e}, w.OneLoad (.raises 0) := ⟨trivial, trivial⟩
  rcases reply with x | _ | chunks
  case error | ok.none =>
    cases raised with
    | none => exact reported_of_ending kv (hstart.snoc hok rfl)
    | some n =>
      obtain rfl : n = 0 := Nat.le_zero.mp (hcan n rfl)
      exact reported_of_ending kv (hstart.snoc hraises rfl)
  rw [Engine.CanRaise, Engine.scatter] at hcan
  rw [Engine.scatter]
  have hscatter : Run step OneLoad (new kv) _ (single kv ⟨"a", op, some (.ok (some chunks)),
    .scatter (e.finishLoad op chunks).1 (e.finishLoad op chunks).2, [], [], none⟩) :=
    hstart.snoc hok rfl
  rcases hrows : e.finishLoad op chunks with ⟨rows, exc⟩
  rw [hrows] at hcan hscatter
  cases raised with
  | some n =>
    rw [← List.take_append_drop n rows] at hscatter
    have hrun := (hscatter.trans (run_issue kv _ _)).snoc hraises rfl
    rw [List.nil_append] at hrun
    have hlen : (rows.take n).length = n := List.length_take_of_le (hcan n rfl)
    rw [← hlen]
    exact reported_of_ending kv hrun
  | none =>
    rw [← List.append_nil rows] at hscatter
    have hissued := hscatter.trans (run_issue kv _ _)
    cases exc with
    | some x => exact reported_of_ending kv (hissued.snoc hok rfl)
    | none =>
      obtain ⟨kv', hwritten⟩ := @run_kernel e op (.ok (some chunks)) rows [] kv
      exact reported_of_ending kv' (((hissued.snoc hok rfl).trans hwritten).snoc hok rfl)

end

/-- A load is reported finished only if it happened, exactly when it was delivered. Every load of
a request that is reported has an outcome : its reply, and where its thread raised. All runs in
which a load has that outcome report it only after the blocks of its range have been overwritten
with what the server returned, if and only if the server returned the chunks of the op, each of
the right size, and nothing else made the thread raise. -/
theorem recving_overwritten_iff (hbytes : 0 < e.transfer.blockNbytes) :
    (∀ (w : WorkerConnector e) (ids : Finset String), w.OneLoadReachable → ∀ l ∈ w.loads,
      l.requestId ∈ (w.getFinished ids).1.2 →
      e.RetrieveOp l.op ∧ ∃ reply, l.reply = some reply ∧ e.CanRaise l.op reply l.raised) ∧
    ∀ op reply raised, e.RetrieveOp op → e.CanRaise op reply raised →
      ((∀ (w : WorkerConnector e) (ids : Finset String), w.OneLoadReachable → ∀ l ∈ w.loads,
          l.requestId ∈ (w.getFinished ids).1.2 → l.op = op → l.reply = some reply →
          l.raised = raised → e.Overwritten op reply l.written) ↔
        e.Delivered op reply ∧ raised = none) := by
  constructor
  · intro w ids h l hl hr
    have hinv := h.loadInv
    obtain ⟨reply, hreply, hcan, -⟩ := hinv.outcome_of_done hl (hinv.done_of_mem_recving hr hl rfl)
    exact ⟨hinv.retrieveOp l hl, reply, hreply, hcan⟩
  · intro op reply raised hop hcan
    constructor
    · intro hall
      let kv : KVCache e.transfer.blockNbytes :=
        ⟨fun _ _ => List.replicate _ 0, fun _ _ => List.length_replicate⟩
      obtain ⟨w, hw, l, hl, hr, hlop, hreply, hraised, hwritten⟩ :=
        exists_run_of_outcome kv hop hcan
      have hover := hall w ∅ hw l hl hr hlop hreply hraised
      rw [hwritten] at hover
      split_ifs at hover with hend
      · exact ⟨(Engine.delivered_iff hop hbytes reply).mpr ⟨hover, hend.2⟩, hend.1⟩
      · exact absurd hover (Engine.not_overwritten_nil hop reply)
    · rintro ⟨hdelivered, rfl⟩ w ids h l hl hr rfl hreply hraised
      have hinv := h.loadInv
      obtain ⟨reply', hreply', -, hdone⟩ :=
        hinv.outcome_of_done hl (hinv.done_of_mem_recving hr hl rfl)
      rw [hreply] at hreply'
      cases hreply'
      obtain ⟨hover, hnone⟩ := (Engine.delivered_iff hop hbytes reply).mp hdelivered
      exact hdone hraised hnone ▸ hover

/-- Request `b` gets its two chunks, and the six rows it loads are written before it is
reported. -/
theorem recving_overwritten_iff_sample : ∃ w : WorkerConnector .sample, w.OneLoadReachable ∧
    "b" ∈ (w.getFinished ∅).1.2 ∧ ∃ l ∈ w.loads, l.requestId = "b" ∧
      Engine.sample.Overwritten sampleLoadOp (.ok (some [[0, 1, 2, 3], [4, 5, 6, 7]]))
        l.written := by
  have hrun : (replay step (fun w lab => decide (w.Fresh lab)) (new sampleKV)
      ([.startLoadKv sampleMetadata, .loadReply 0 (.ok (some [[0, 1, 2, 3], [4, 5, 6, 7]]))] ++
        List.replicate 8 (.finishLoad 0) ++ List.replicate 6 (.kernel 0) ++
        List.replicate 2 (.finishLoad 0))).map (fun w => decide ("b" ∈ (w.getFinished ∅).1.2 ∧
        w.loads.map (fun l => (l.requestId, l.op, l.raised)) = [("b", sampleLoadOp, none)] ∧
        w.loads.map LoadCall.reply = [some (.ok (some [[0, 1, 2, 3], [4, 5, 6, 7]]))])) =
      some true := by decide
  obtain ⟨w, hw, he⟩ := Option.map_eq_some_iff.mp hrun
  obtain ⟨hrecv, hcall, hreplies⟩ := of_decide_eq_true he
  have hreach : w.OneLoadReachable := by
    refine ⟨sampleKV, _,
      ((run_of_replay hw).mono fun _ _ hok => of_decide_eq_true hok).and_label ?_⟩
    simp only [List.forall_mem_append, List.forall_mem_cons, List.not_mem_nil, false_implies,
      implies_true, and_true, List.mem_replicate]
    refine ⟨⟨⟨⟨sampleMetadata_generated, trivial⟩, ?_⟩, ?_⟩, ?_⟩ <;>
    · rintro _ ⟨-, rfl⟩
      exact trivial
  obtain ⟨l, hloads⟩ := List.map_eq_singleton_iff.mp hcall
  rw [hloads.1, List.map_singleton, List.singleton_inj] at hreplies
  have hl : l ∈ w.loads := hloads.1 ▸ List.mem_singleton_self l
  obtain ⟨hreq, hop, hraised⟩ : l.requestId = "b" ∧ l.op = sampleLoadOp ∧ l.raised = none := by
    simpa using hloads.2
  have hiff := (recving_overwritten_iff (e := .sample) (by decide)).2 sampleLoadOp
    (.ok (some [[0, 1, 2, 3], [4, 5, 6, 7]])) none sampleLoadOp_retrieve nofun
  exact ⟨w, hreach, hrecv, l, hl, hreq, hiff.mpr ⟨⟨_, rfl, by decide, by decide⟩, rfl⟩ w ∅ hreach l
    hl (hreq ▸ hrecv) hop hreplies hraised⟩

/-- The server raises, and request `b` is reported although nothing was loaded. -/
theorem failed_load_reported : ∃ w : WorkerConnector .sample,
    Run step (fun _ lab => lab.Generated .sample) (new sampleKV)
      [.startLoadKv sampleMetadata, .loadReply 0 (.error .keyError), .finishLoad 0, .finishLoad 0]
      w ∧ "b" ∈ (w.getFinished ∅).1.2 ∧ ∃ l ∈ w.loads, l.requestId = "b" ∧ l.written = [] ∧
      ∀ reply, ¬Engine.sample.Overwritten l.op reply l.written := by
  have hrun : (replay step (fun _ _ => true) (new sampleKV)
      [.startLoadKv sampleMetadata, .loadReply 0 (.error .keyError), .finishLoad 0,
        .finishLoad 0]).map (fun w => decide ("b" ∈ (w.getFinished ∅).1.2 ∧
        w.loads.map (fun l => (l.requestId, l.op, l.written)) = [("b", sampleLoadOp, [])])) =
      some true := by decide
  obtain ⟨w, hw, he⟩ := Option.map_eq_some_iff.mp hrun
  obtain ⟨hrecv, hcall⟩ := of_decide_eq_true he
  obtain ⟨l, hloads, heq⟩ := List.map_eq_singleton_iff.mp hcall
  obtain ⟨hreq, hop, hwritten⟩ : l.requestId = "b" ∧ l.op = sampleLoadOp ∧ l.written = [] := by
    simpa using heq
  refine ⟨w, ?_, hrecv, l, hloads ▸ List.mem_singleton_self l, hreq, hwritten, fun reply => ?_⟩
  · refine ((run_of_replay hw).and_label (P := fun lab => lab.Generated .sample) ?_).mono
      fun _ _ hok => hok.1
    simp only [List.forall_mem_cons, List.not_mem_nil, false_implies, implies_true, and_true]
    exact ⟨sampleMetadata_generated, trivial, trivial, trivial⟩
  · rintro ⟨chunks, -, hall⟩
    rw [hop, hwritten] at hall
    -- block 5, of token 1, in the first layer
    obtain ⟨id, chunk, -, -, hmem⟩ := hall 0 (by decide) 1 (by decide) (by decide)
    exact absurd hmem List.not_mem_nil

end WorkerConnector

end MiniLlmcache
