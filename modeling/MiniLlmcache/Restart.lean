import MiniLlmcache.Node

/-!
# What survives a restart

Over any run of a `Node`, with any interleaving of the process and the accesses to the directories,
exceptions at any point and any number of restarts.

`Node.integrity_across_restarts` : a readable entry of L1 holds what some STORE, of this process or
an earlier one, carried for its key, and so does every file. A file may be longer than the slots it
is loaded into (`f.readinto` stops when the slot is full), so it is the beginning of what was
carried, and all of it when the sizes agree.

`Node.written_back_durable` : when the write-back loop is through with a batch, every chunk of it
has a file in every directory, and keeps it.
-/

namespace MiniLlmcache

variable {blake3 : Bytes → Bytes}

/-! ## What the process sees of a load -/

namespace System

variable {s s' : System} {i : ℕ}

/-- A slot counts as filled when a file had bytes for all of it. -/
theorem fill_of_sees {fs : FSAdapter} {l : FSLabel} {data : Bytes}
    (h : .fill data true ∈ s.sees fs l) : s.sees fs l = [.fill data true] ∧
      ∃ key nbytes todo loaded file, fs.thread = .load ((key, nbytes) :: todo) loaded ∧
        fs.stored? (filename key) = some file ∧ data = file.take nbytes := by
  unfold sees at h ⊢
  split at h
  · simp at h
  · split at h
    case h_7 key nbytes todo loaded ht =>
      split at h
      · simp at h
      · rename_i file hfile
        split_ifs at h ⊢
        · simp at h
        · simp only [List.mem_singleton, L2Act.fill.injEq, and_true] at h
          subst h
          exact ⟨rfl, key, nbytes, todo, loaded, file, ht, hfile, rfl⟩
    case h_2 | h_3 | h_5 => split_ifs at h <;> simp at h
    all_goals simp at h
  · simp at h

/-- What an adapter's step adds to what was written. -/
theorem l2_ghosts {act : L2Act} (hs : s.step blake3 (.l2 i act) = some s') :
    s'.server.carried = s.server.carried ∧ s'.handlers = s.handlers ∧
      (s'.server.written = s.server.written ∨ ∃ data x, act = .fill data true ∧
        s.loadTarget = some x ∧ s'.server.written = s.server.written ++ [(x.1, data)]) := by
  cases l2_does hs with
  | found | lookupFail =>
    rw [server_setLookup, handlers_setLookup]
    exact ⟨rfl, rfl, Or.inl rfl⟩
  | @fill p order filled key obj data hw hget =>
    refine ⟨rfl, rfl, Or.inr ⟨data, (key, obj), rfl, ?_, rfl⟩⟩
    rw [loadTarget, hw]
    exact hget
  | _ => exact ⟨rfl, rfl, Or.inl rfl⟩

end System

/-- The step does not end the process. -/
def NodeLabel.goesOn : NodeLabel → Bool
  | .restart _ _ _ _ => false
  | _ => true

namespace Node

variable {n n' : Node}

/-- A beginning of what some STORE carried for the key. -/
def Cut (n : Node) (p : ChunkKey × Bytes) : Prop := ∃ blob, (p.1, blob) ∈ n.carried ∧ p.2 <+: blob

theorem cut_of_mem {p : ChunkKey × Bytes} (h : p ∈ n.carried) : n.Cut p :=
  ⟨p.2, h, List.prefix_rfl⟩

theorem Cut.mono {p : ChunkKey × Bytes} (h : n.Cut p) (hsub : ∀ q ∈ n.carried, q ∈ n'.carried) :
    n'.Cut p := by
  obtain ⟨blob, hblob, hpre⟩ := h
  exact ⟨blob, hsub _ hblob, hpre⟩

/-- The chunk that is loaded next shares its file name with no other chunk that was stored. -/
def Apart (n : Node) : Prop :=
  ∀ x ∈ n.system.loadTarget, ∀ q ∈ n.carried, filename q.1 = filename x.1 → q.1 = x.1

instance (n : Node) : Decidable n.Apart := by
  unfold Apart
  infer_instance

variable (blake3) in
/-- A state that some run reaches from empty directories. -/
def Reachable (n : Node) : Prop :=
  ∃ chunkSize capacity pool adapters labels,
    Run (step blake3) (fun n l => n.Distinct blake3 l ∧ n.Apart)
      (new chunkSize capacity pool adapters) labels n

/-! ## Integrity -/

/-- What is in L1 and in the files was carried by a STORE. -/
structure Backed (n : Node) : Prop where
  written : ∀ p ∈ n.system.server.written, n.Cut p
  handlers : ∀ t m h, n.system.handlers.get? t = some (m, h) → h.Brings n.system.server.carried
  given : ∀ (i : ℕ) (fs : FSAdapter), n.dirs[i]? = some fs → ∀ g ∈ fs.given,
    ∃ key, filename key = g.1 ∧ n.Cut (key, g.2)

theorem backed_new (chunkSize capacity : ℕ) (pool : ℕ → UInt8) (adapters : ℕ) :
    (new chunkSize capacity pool adapters).Backed where
  written p hp := by cases hp
  handlers t m h hget := by cases hget
  given i fs hfs g hg := by
    rw [List.eq_of_mem_replicate (List.mem_of_getElem? hfs)] at hg
    cases hg

/-- A step of the process that is not an adapter's. -/
theorem Backed.run {l : Label} {system : System} (h : n.Backed) (hl : ∀ i act, l ≠ .l2 i act)
    (hs : n.system.step blake3 l = some system) : ({ n with system } : Node).Backed := by
  -- what is written from now on is carried from now on
  have hstep : ∀ {t : System}, (∀ p ∈ n.system.server.carried, p ∈ t.server.carried) →
      (∀ p ∈ t.server.written, p ∈ n.system.server.written ∨ p ∈ t.server.carried) →
      (∀ t' m hd, t.handlers.get? t' = some (m, hd) → hd.Brings t.server.carried) →
      ({ n with system := t } : Node).Backed := by
    intro t hcarried hwritten hhandlers
    have hsub : ∀ q ∈ n.carried, q ∈ ({ n with system := t } : Node).carried := by
      intro q hq
      rcases List.mem_append.mp hq with hq | hq
      · exact List.mem_append_left _ hq
      · exact List.mem_append_right _ (hcarried q hq)
    refine ⟨fun p hp => ?_, hhandlers, fun i fs hfs g hg => ?_⟩
    · rcases hwritten p hp with hp | hp
      · exact (h.written p hp).mono hsub
      · exact cut_of_mem (List.mem_append_right _ hp)
    · obtain ⟨key, hkey, hcut⟩ := h.given i fs hfs g hg
      exact ⟨key, hkey, hcut.mono hsub⟩
  cases l with
  | recv t m =>
    obtain ⟨-, rfl⟩ := System.step_recv hs
    refine hstep (fun _ => id) (fun _ => Or.inl) fun t' m' hd hget => ?_
    rcases OrderedDict.eq_or_get?_of_set hget with ⟨-, he⟩ | hget
    · cases he
      trivial
    · exact h.handlers t' m' hd hget
  | handler t =>
    obtain ⟨m, hd, srv', hd', hget, hdoes, rfl⟩ := System.step_handler hs
    obtain ⟨hcarried, hwritten, hbrings⟩ := Handler.brings_step (h.handlers t m hd hget) hdoes
    refine hstep hcarried hwritten fun t' m' h' hget' => ?_
    rcases OrderedDict.eq_or_get?_of_set hget' with ⟨-, he⟩ | hget'
    · cases he
      exact hbrings
    · exact (h.handlers t' m' h' hget').mono hcarried
  | worker =>
    obtain ⟨srv', l2s', w', hdoes, rfl⟩ := System.step_worker hs
    obtain ⟨hcarried, hwritten, -⟩ := hdoes.ghosts_eq
    refine hstep ?_ ?_ ?_
    all_goals
      dsimp only
      rw [hcarried]
    · exact fun _ => id
    · rw [hwritten]
      exact fun _ => Or.inl
    · exact h.handlers
  | writeback =>
    obtain ⟨srv', l2s', w', hdoes, rfl⟩ := System.step_writeback hs
    obtain ⟨hcarried, hwritten, -⟩ := hdoes.ghosts_eq
    refine hstep ?_ ?_ ?_
    all_goals
      dsimp only
      rw [hcarried]
    · exact fun _ => id
    · rw [hwritten]
      exact fun _ => Or.inl
    · exact h.handlers
  | evictor =>
    obtain rfl := System.step_evictor hs
    obtain ⟨hcarried, hwritten⟩ := Evictor.ghosts_eq n.system.server n.system.evictor
    refine hstep ?_ ?_ ?_
    all_goals
      dsimp only
      rw [hcarried]
    · exact fun _ => id
    · rw [hwritten]
      exact fun _ => Or.inl
    · exact h.handlers
  | l2 i act => exact (hl i act rfl).elim

/-- The objects of a store are readable entries. -/
theorem Backed.objects (h : n.Backed) (hc : n.Coherent blake3) {i : ℕ}
    {rest : List (ChunkKey × MemoryObj)}
    (hrun : n.system.writeback.futures[i]? = some (.running rest)) :
    ∀ p ∈ n.system.objects rest, n.Cut p := by
  obtain ⟨lost, hinv⟩ := hc.sane.inv
  intro p hp
  obtain ⟨x, hx, rfl⟩ := List.mem_map.mp hp
  have hchunk := hc.sane.lent.running _ (List.mem_of_getElem? hrun) x hx
  obtain ⟨e, he, hr⟩ := hinv.entry_of_chunk hchunk
  obtain ⟨e', he', hobj⟩ := hc.sane.lent.locked x hchunk
  obtain rfl : e = e' := Option.some.inj (he.symm.trans he')
  exact h.written _ (hobj ▸ hinv.ledger.data x.1 e he hr)

/-- What a task gives the adapter. -/
theorem given_submit (fs : FSAdapter) (task : FSTask) : ∀ g ∈ (fs.submit task).given,
    g ∈ fs.given ∨ ∃ items, task = .store items ∧ ∃ p ∈ items, g = (filename p.1, p.2) := by
  cases task with
  | store items =>
    intro g hg
    rcases List.mem_append.mp hg with hg | hg
    · exact Or.inl hg
    · obtain ⟨p, hp, rfl⟩ := List.mem_map.mp hg
      exact Or.inr ⟨items, rfl, p, hp, rfl⟩
  | lookup | load => exact fun g => Or.inl

theorem Backed.take {i : ℕ} {fs fs' : FSAdapter} {task : FSTask} (h : n.Backed)
    (hc : n.Coherent blake3) (hfs : n.dirs[i]? = some fs) (htask : n.system.nextTask i = some task)
    (hs : fs.step (.submit task) = some fs') :
    ({ n with dirs := n.dirs.set i fs' } : Node).Backed := by
  refine ⟨h.written, h.handlers, fun j fs₁ hfs₁ g hg => ?_⟩
  rcases eq_or_getElem?_of_set hfs₁ with ⟨rfl, rfl⟩ | ⟨-, hfs₁⟩
  · simp only [FSAdapter.step, Option.ite_none_right_eq_some, Option.some.injEq] at hs
    obtain ⟨-, rfl⟩ := hs
    rcases given_submit fs task g hg with hg | ⟨items, rfl, p, hp, rfl⟩
    · exact h.given _ _ hfs g hg
    · refine ⟨p.1, rfl, ?_⟩
      obtain ⟨rest, hrun, rfl⟩ : ∃ rest, n.system.writeback.futures[i]? = some (.running rest) ∧
          items = n.system.objects rest := by
        unfold System.nextTask at htask
        split at htask
        · split at htask <;> cases htask
        · split at htask
          · split_ifs at htask
            cases htask
          · cases htask
        · split at htask
          · rename_i rest hrun
            cases htask
            exact ⟨rest, hrun, rfl⟩
          · cases htask
        · cases htask
      exact h.objects hc hrun p hp
  · exact h.given j fs₁ hfs₁ g hg

/-- The thread's accesses are given no new objects. -/
theorem given_step {fs fs' : FSAdapter} {l : FSLabel}
    (hl : l = .next ∨ (∃ k, l = .write k) ∨ l = .fail) (hs : fs.step l = some fs') :
    fs'.given = fs.given := by
  rcases hl with rfl | ⟨k, rfl⟩ | rfl
  · simp only [FSAdapter.step, FSAdapter.next] at hs
    repeat' split at hs
    all_goals cases hs <;> rfl
  · simp only [FSAdapter.step, FSAdapter.write] at hs
    split at hs
    · split_ifs at hs
      cases hs
      rfl
    · cases hs
  · simp only [FSAdapter.step, Option.ite_none_left_eq_some, Option.some.injEq] at hs
    obtain ⟨-, rfl⟩ := hs
    rfl

/-- A thread's step, with what the process sees of it. -/
theorem Backed.disk {i : ℕ} {l : FSLabel} {fs fs' : FSAdapter} {system : System} (h : n.Backed)
    (hc : n.Coherent blake3) (hapart : n.Apart)
    (hl : l = .next ∨ (∃ k, l = .write k) ∨ l = .fail) (hfs : n.dirs[i]? = some fs)
    (hs : fs.step l = some fs')
    (hsys : n.system.answer blake3 i (n.system.sees fs l) = some system) :
    ({ n with system, dirs := n.dirs.set i fs' } : Node).Backed := by
  have hgiven : ∀ (j : ℕ) (fs₁ : FSAdapter), (n.dirs.set i fs')[j]? = some fs₁ → ∀ g ∈ fs₁.given,
      ∃ key, filename key = g.1 ∧ n.Cut (key, g.2) := by
    intro j fs₁ hfs₁ g hg
    rcases eq_or_getElem?_of_set hfs₁ with ⟨rfl, rfl⟩ | ⟨-, hfs₁⟩
    · exact h.given _ _ hfs g (given_step hl hs ▸ hg)
    · exact h.given j fs₁ hfs₁ g hg
  obtain ⟨hcarried, hhandlers, hwritten⟩ :
      system.server.carried = n.system.server.carried ∧ system.handlers = n.system.handlers ∧
      ∀ p ∈ system.server.written, n.Cut p := by
    by_cases hfill : ∃ data, .fill data true ∈ n.system.sees fs l
    · -- the file of the slot's key was stored for that key
      obtain ⟨data, hfill⟩ := hfill
      obtain ⟨hsees, key, nbytes, todo, loaded, file, ht, hfile, rfl⟩ := System.fill_of_sees hfill
      rw [hsees, System.answer_singleton] at hsys
      obtain ⟨hcarried, hhandlers, hwritten⟩ := System.l2_ghosts hsys
      refine ⟨hcarried, hhandlers, fun p hp => ?_⟩
      rcases hwritten with heq | ⟨data, x, hact, htarget, heq⟩
      · exact h.written p (heq ▸ hp)
      · rw [heq] at hp
        rcases List.mem_append.mp hp with hp | hp
        · exact h.written p hp
        · obtain ⟨p', order, x', hw, hget, hslot⟩ := (hc.synced i fs hfs).target ht
          have hx : n.system.loadTarget = some x' := by
            rw [System.loadTarget, hw]
            exact hget
          obtain rfl : x = x' := Option.some.inj (htarget.symm.trans hx)
          obtain rfl : key = x.1 := congrArg Prod.fst hslot
          cases hact
          obtain ⟨key', hname, blob, hblob, hpre⟩ :=
            h.given i fs hfs _ ((hc.reachable i fs hfs).inv.complete _ _ hfile)
          have hkey : key' = x.1 := hapart x htarget (key', blob) hblob hname
          rw [List.mem_singleton.mp hp]
          exact ⟨blob, hkey ▸ hblob, (List.take_prefix _ _).trans hpre⟩
    · have hghosts : system.server.carried = n.system.server.carried ∧
          system.handlers = n.system.handlers ∧
          system.server.written = n.system.server.written := by
        refine System.answer_invariant (fun t => t.server.carried = n.system.server.carried ∧
          t.handlers = n.system.handlers ∧ t.server.written = n.system.server.written) hsys
          ⟨rfl, rfl, rfl⟩ ?_
        rintro t act hact t' ⟨hc, hh, hw⟩ hstep
        obtain ⟨hc', hh', hw' | ⟨data, -, rfl, -⟩⟩ := System.l2_ghosts hstep
        · exact ⟨hc'.trans hc, hh'.trans hh, hw'.trans hw⟩
        · exact (hfill ⟨data, hact⟩).elim
      exact ⟨hghosts.1, hghosts.2.1, fun p hp => h.written p (hghosts.2.2 ▸ hp)⟩
  have hsub : ∀ q ∈ n.carried,
      q ∈ ({ n with system, dirs := n.dirs.set i fs' } : Node).carried := by
    intro q hq
    rcases List.mem_append.mp hq with hq | hq
    · exact List.mem_append_left _ hq
    · exact List.mem_append_right _ (hcarried ▸ hq)
  refine ⟨fun p hp => (hwritten p hp).mono hsub, ?_, fun j fs₁ hfs₁ g hg => ?_⟩
  · dsimp only
    rw [hcarried, hhandlers]
    exact h.handlers
  · obtain ⟨key, hkey, hcut⟩ := hgiven j fs₁ hfs₁ g hg
    exact ⟨key, hkey, hcut.mono hsub⟩

theorem Backed.restart (h : n.Backed) (chunkSize capacity : ℕ) (pool : ℕ → UInt8)
    (left : List (Option Bytes)) :
    ({ system := .new chunkSize capacity pool n.dirs.length
       dirs := n.dirs.mapIdx fun i fs => fs.crash (left.getD i none)
       past := n.carried } : Node).Backed := by
  refine ⟨List.forall_mem_nil _, by rintro _ _ _ ⟨⟩, fun i fs hfs g hg => ?_⟩
  rw [List.getElem?_mapIdx] at hfs
  obtain ⟨fs₀, hfs₀, rfl⟩ := Option.map_eq_some_iff.mp hfs
  obtain ⟨key, hkey, hcut⟩ := h.given i fs₀ hfs₀ g hg
  exact ⟨key, hkey, hcut.mono fun _ hq => List.mem_append_left _ hq⟩

theorem Backed.step {l : NodeLabel} (h : n.Backed) (hc : n.Coherent blake3) (hapart : n.Apart)
    (hs : n.step blake3 l = some n') : n'.Backed := by
  cases steps_of_step hs with
  | run hl hsys => exact h.run hl hsys
  | take hfs htask hstep => exact h.take hc hfs htask hstep
  | disk hl hfs hstep hsys => exact h.disk hc hapart hl hfs hstep hsys
  | restart chunkSize capacity pool left => exact h.restart chunkSize capacity pool left

theorem Reachable.backed (h : n.Reachable blake3) : n.Coherent blake3 ∧ n.Backed := by
  obtain ⟨_, _, _, _, _, hrun⟩ := h
  refine hrun.invariant (fun n => n.Coherent blake3 ∧ n.Backed)
    ⟨coherent_new _ _ _ _, backed_new _ _ _ _⟩ ?_
  rintro n l n' ⟨hc, hb⟩ ⟨hd, hapart⟩ hs
  exact ⟨hc.step hd hs, hb.step hc hapart hs⟩

/-- An adapter's answers leave the entries alone, and what is in them. -/
theorem entries_answer {i : ℕ} {acts : List L2Act} {system : System} (h : n.system.Sane blake3)
    (hs : n.system.answer blake3 i acts = some system) {k : ChunkKey} {e : Entry}
    (he : n.system.server.l1.entries.get? k = some e) (hr : e.writeLocked = false) :
    system.server.l1.bytes e.obj = n.system.server.l1.bytes e.obj := by
  refine (System.answer_invariant (fun t => t.Sane blake3 ∧
    t.server.l1.entries = n.system.server.l1.entries ∧
    t.server.l1.bytes e.obj = n.system.server.l1.bytes e.obj) hs ⟨h, rfl, rfl⟩ ?_).2.2
  rintro t act - t' ⟨hsane, hentries, hbytes⟩ hstep
  obtain ⟨lost, hinv⟩ := hsane.inv
  have hd : t.Distinct blake3 (.l2 i act) := trivial
  obtain ⟨-, hev, -⟩ := System.inv_step hinv hd hstep
  refine ⟨hsane.step hd hstep, ?_, (hev.bytes k e (hentries ▸ he) hr).trans hbytes⟩
  cases System.l2_does hstep with
  | found | lookupFail =>
    rw [System.server_setLookup]
    exact hentries
  | _ => exact hentries

/-- Integrity over restarts : a readable entry of L1 holds the beginning of a blob that a STORE of
this process or an earlier one carried for its key, and no step of this process changes it; and a
file under its final name holds the beginning of a blob that was carried for a chunk of that
name. -/
theorem integrity_across_restarts (h : n.Reachable blake3) :
    (∀ k e, n.system.server.l1.entries.get? k = some e → e.writeLocked = false →
      (∃ blob, (k, blob) ∈ n.carried ∧ n.system.server.l1.bytes e.obj <+: blob) ∧
      ∀ l n', n.Distinct blake3 l → l.goesOn = true → n.step blake3 l = some n' →
        n'.system.server.l1.bytes e.obj = n.system.server.l1.bytes e.obj) ∧
    ∀ (i : ℕ) (fs : FSAdapter), n.dirs[i]? = some fs → ∀ name data, fs.stored? name = some data →
      ∃ k blob, filename k = name ∧ (k, blob) ∈ n.carried ∧ data <+: blob := by
  obtain ⟨hc, hb⟩ := h.backed
  obtain ⟨lost, hinv⟩ := hc.sane.inv
  refine ⟨fun k e he hr => ⟨hb.written _ (hinv.ledger.data k e he hr), fun l n' hd hl hs => ?_⟩,
    fun i fs hfs name data hdata => ?_⟩
  · cases steps_of_step hs with
    | run hl' hsys =>
      obtain ⟨-, hev, -⟩ := System.inv_step hinv hd hsys
      exact hev.bytes k e he hr
    | take => rfl
    | disk hl' hfs hstep hsys => exact entries_answer hc.sane hsys he hr
    | restart => cases hl
  · obtain ⟨k, hk, blob, hblob, hpre⟩ :=
      hb.given i fs hfs _ ((hc.reachable i fs hfs).inv.complete name data hdata)
    exact ⟨k, blob, hk, hblob, hpre⟩

/-- The first process stores the chunk of `[1]` and writes it back. -/
def sampleWriteBack : List NodeLabel :=
  ([.recv 0 (.registerKvCache ⟨7, "m", 0, 1, 1, 2⟩), .handler 0,
    .recv 1 (.store ⟨"a", 7, System.sampleOp 1, [[5, 6]]⟩), .handler 1, .handler 1, .handler 1,
    .handler 1, .writeback, .writeback, .writeback] : List Label).map .run ++
  [.take 0, .disk 0 .next, .disk 0 (.write 2), .disk 0 .next, .disk 0 .next, .disk 0 .next,
    .run .writeback]

/-- The next process looks `[1]` up and loads it. -/
def sampleReload : List NodeLabel :=
  ([.recv 0 (.registerKvCache ⟨7, "m", 0, 1, 1, 2⟩), .handler 0,
    .recv 1 (.lookup ⟨"b", [1], "m", 1⟩), .handler 1, .handler 1, .handler 1,
    .worker, .worker, .worker] : List Label).map .run ++
  [.take 0, .disk 0 .next, .disk 0 .next, .run .worker, .run .worker, .run .worker, .run .worker,
    .take 0, .disk 0 .next, .disk 0 .next, .run .worker, .run .worker, .run .worker]

/-- Run a server with one directory. -/
def sample (labels : List NodeLabel) : Option Node :=
  replay (step System.sampleDigest) (fun n l => decide (n.Distinct System.sampleDigest l ∧ n.Apart))
    (new 1 2 (fun _ => 0) 1) labels

theorem run_of_sample {labels : List NodeLabel} (h : sample labels = some n) :
    Run (step System.sampleDigest) (fun n l => n.Distinct System.sampleDigest l ∧ n.Apart)
      (new 1 2 (fun _ => 0) 1) labels n :=
  (run_of_replay h).mono fun _ _ hd => of_decide_eq_true hd

/-- The chunk that the second process loads is the one that the first has stored. -/
theorem integrity_across_restarts_sample : ∃ n e,
    sample (sampleWriteBack ++ .restart 1 2 (fun _ => 0) [] :: sampleReload) = some n ∧
    n.system.server.carried = [] ∧ n.past = [(System.sampleKey 1, [5, 6])] ∧
    n.system.server.l1.entries.get? (System.sampleKey 1) = some e ∧
    ∃ blob, (System.sampleKey 1, blob) ∈ n.carried ∧ n.system.server.l1.bytes e.obj <+: blob := by
  have hrun : (sample (sampleWriteBack ++ .restart 1 2 (fun _ => 0) [] :: sampleReload)).map
      (fun n => (n.system.server.carried, n.past,
        n.system.server.l1.entries.get? (System.sampleKey 1))) =
      some ([], [(System.sampleKey 1, [5, 6])], some ⟨⟨0, 2⟩, false, 1, true⟩) := by decide
  obtain ⟨n, hn, he⟩ := Option.map_eq_some_iff.mp hrun
  obtain ⟨hcarried, hpast, hentry⟩ : n.system.server.carried = [] ∧ _ ∧ _ := by
    simpa only [Prod.mk.injEq] using he
  have hreach : n.Reachable System.sampleDigest := ⟨1, 2, _, 1, _, run_of_sample hn⟩
  exact ⟨n, _, hn, hcarried, hpast, hentry,
    ((integrity_across_restarts hreach).1 _ _ hentry rfl).1⟩

/-! ## Durability -/

end Node

/-- The chunk has its file. -/
def FSAdapter.Has (fs : FSAdapter) (key : ChunkKey) : Prop := (fs.stored? (filename key)).isSome

theorem FSAdapter.Keeps.has {fs fs' : FSAdapter} (h : Keeps fs fs') {key : ChunkKey}
    (hkey : fs.Has key) : fs'.Has key := by
  obtain ⟨data, hdata⟩ := Option.isSome_iff_exists.mp hkey
  exact Option.isSome_iff_exists.mpr ⟨data, h _ data hdata⟩

namespace System

variable {s s' : System} {i : ℕ}

/-- An object counts as stored when it has its file. -/
theorem has_of_sees {fs fs' : FSAdapter} {l : FSLabel} {skip : Bool}
    (h : .persist skip ∈ s.sees fs l) (hs : fs.step l = some fs') :
    s.sees fs l = [.persist skip] ∧ fs.thread.task = some .store ∧
      ∃ key, fs'.Has key ∧
        ∀ items, fs.thread.Stores items → items.head?.map Prod.fst = some key := by
  cases l with
  | next =>
    simp only [FSAdapter.step, FSAdapter.next] at hs
    simp only [sees] at h ⊢
    split at hs <;> rename_i ht <;> rw [ht] at h ⊢
    case h_3 key blob todo =>
      dsimp only at h ⊢
      split_ifs at hs h ⊢ with hthere
      · rw [List.mem_singleton.mp h]
        cases hs
        exact ⟨rfl, rfl, key, hthere, fun items hitems => hitems ▸ rfl⟩
      · cases h
    case h_5 key todo =>
      dsimp only at h ⊢
      rw [OrderedDict.contains] at h ⊢
      split at hs <;> rename_i hget <;> rw [hget] at h ⊢
      · rcases List.mem_singleton.mp h with ⟨⟩
      · rw [List.mem_singleton.mp h]
        cases hs
        refine ⟨rfl, rfl, key, ?_, ?_⟩
        · rw [FSAdapter.Has, FSAdapter.stored?, FSAdapter.get?_replace, if_pos rfl]
          rfl
        · rintro items ⟨blob, rfl⟩
          rfl
    case h_7 =>
      dsimp only at h
      split_ifs at h <;> simp at h
    case h_9 =>
      dsimp only at h
      split at h
      · simp at h
      · split_ifs at h <;> simp at h
    all_goals simp at h
  | _ => simp [sees] at h

/-- What becomes of the store of adapter `i` : of what it had to do, it has what it has not done
yet, if it has not raised. -/
def StoreGoesOn (s s' : System) (i : ℕ) (P : ChunkKey → Prop) : Prop :=
  s'.writeback.chunks = s.writeback.chunks ∧
  (∀ keys, s'.writeback = .finishRead keys → s.writeback = .finishRead keys) ∧
  (∀ j ≠ i, s'.writeback.futures[j]? = s.writeback.futures[j]?) ∧
  ∀ f', s'.writeback.futures[i]? = some f' → f' ≠ .raised →
    ∃ f, s.writeback.futures[i]? = some f ∧ f ≠ .raised ∧ ∀ x ∈ f.todo, x ∈ f'.todo ∨ P x.1

variable {P : ChunkKey → Prop}

theorem StoreGoesOn.of_eq (h : s'.writeback = s.writeback) : StoreGoesOn s s' i P := by
  rw [StoreGoesOn, h]
  exact ⟨rfl, fun _ => id, fun _ _ => rfl,
    fun f hf hne => ⟨f, hf, hne, fun _ hx => Or.inl hx⟩⟩

theorem StoreGoesOn.trans {t : System} (h : StoreGoesOn s t i P) (h' : StoreGoesOn t s' i P) :
    StoreGoesOn s s' i P := by
  obtain ⟨hchunks, hdone, hother, hthis⟩ := h
  obtain ⟨hchunks', hdone', hother', hthis'⟩ := h'
  refine ⟨hchunks'.trans hchunks, fun keys hk => hdone keys (hdone' keys hk),
    fun j hj => (hother' j hj).trans (hother j hj), fun f' hf' hne => ?_⟩
  obtain ⟨f, hf, hne, hsub⟩ := hthis' f' hf' hne
  obtain ⟨f₀, hf₀, hne₀, hsub₀⟩ := hthis f hf hne
  refine ⟨f₀, hf₀, hne₀, fun x hx => ?_⟩
  rcases hsub₀ x hx with hx | hx
  · exact hsub x hx
  · exact Or.inr hx

theorem StoreGoesOn.of_setStore {f' : StoreFuture}
    (hw : s'.writeback = (s.setStore i f').writeback)
    (hf' : f' ≠ .raised → ∃ f, s.writeback.futures[i]? = some f ∧ f ≠ .raised ∧
      ∀ x ∈ f.todo, x ∈ f'.todo ∨ P x.1) : StoreGoesOn s s' i P := by
  rw [StoreGoesOn, hw]
  refine ⟨Writeback.chunks_setFutures _ _, fun keys hk => ?_, fun j hj => ?_, fun f hf hne => ?_⟩
  · rw [setStore] at hk
    cases hwb : s.writeback with
    | finishRead keys' =>
      rw [hwb] at hk
      exact hk
    | _ =>
      rw [hwb] at hk
      cases hk
  · rw [setStore, Writeback.futures_set, List.getElem?_set_ne hj.symm]
  · rw [setStore, Writeback.futures_set, List.getElem?_set, if_pos rfl] at hf
    split_ifs at hf
    obtain rfl := Option.some.inj hf
    exact hf' hne

theorem storeGoesOn_step {act : L2Act} (hs : s.step blake3 (.l2 i act) = some s')
    (hpersist : ∀ skip, act = .persist skip → ∀ x rest,
      s.writeback.futures[i]? = some (.running (x :: rest)) → P x.1) : StoreGoesOn s s' i P := by
  have htaken : ∀ {x : ChunkKey × MemoryObj} {rest}, (∃ skip, act = .persist skip) →
      s.writeback.futures[i]? = some (.running (x :: rest)) → StoreFuture.running rest ≠ .raised →
      ∃ f, s.writeback.futures[i]? = some f ∧ f ≠ .raised ∧
        ∀ y ∈ f.todo, y ∈ (StoreFuture.running rest).todo ∨ P y.1 := by
    rintro x rest ⟨skip, hact⟩ hf -
    refine ⟨_, hf, by rintro ⟨⟩, fun y hy => ?_⟩
    rcases List.mem_cons.mp hy with rfl | hy
    · exact Or.inr (hpersist skip hact y rest hf)
    · exact Or.inl hy
  cases l2_does hs with
  | found | lookupFail => exact .of_eq (writeback_setLookup _ _ _)
  | fill | scribble | loaded | loadFail => exact .of_eq rfl
  | persist hf => exact .of_setStore rfl (htaken ⟨_, rfl⟩ hf)
  | skip hf => exact .of_setStore rfl (htaken ⟨_, rfl⟩ hf)
  | stored hf =>
    refine .of_setStore rfl fun _ => ⟨_, hf, by rintro ⟨⟩, fun x hx => ?_⟩
    cases hx
  | storeFail => exact .of_setStore rfl fun hne => (hne rfl).elim

/-- What a step of an adapter's thread makes of its store : what it has done has its file. -/
theorem Synced.storeGoesOn {fs fs' : FSAdapter} {l : FSLabel} (h : s.Synced i fs)
    (hs : fs.step l = some fs') (hsys : s.answer blake3 i (s.sees fs l) = some s') :
    StoreGoesOn s s' i fs'.Has := by
  by_cases hpersist : ∃ skip, .persist skip ∈ s.sees fs l
  · obtain ⟨skip, hmem⟩ := hpersist
    obtain ⟨hsees, htask, key, hhas, hhead⟩ := has_of_sees hmem hs
    obtain ⟨rest, hrun, hitems⟩ := h.storing htask
    rw [hsees, answer_singleton] at hsys
    refine storeGoesOn_step hsys fun _ _ x rest' hrun' => ?_
    rw [hrun] at hrun'
    cases hrun'
    have hkey := hhead _ hitems
    rw [objects, List.map_cons, List.head?_cons, Option.map_some] at hkey
    rwa [Option.some.inj hkey]
  · refine answer_invariant (fun t => StoreGoesOn s t i fs'.Has) hsys (.of_eq rfl) ?_
    intro t act hact t' ht hstep
    refine ht.trans (storeGoesOn_step hstep fun skip heq _ _ _ => ?_)
    exact (hpersist ⟨skip, heq ▸ hact⟩).elim

end System

namespace Node

variable {n n' : Node}

/-- Of a batch that the loop writes back, what an adapter has done has its file. -/
structure Persisted (n : Node) : Prop where
  stores : ∀ (i : ℕ) (fs : FSAdapter) (f : StoreFuture), n.dirs[i]? = some fs →
    n.system.writeback.futures[i]? = some f → f ≠ .raised →
    ∀ x ∈ n.system.writeback.chunks, x ∈ f.todo ∨ fs.Has x.1
  done : ∀ keys, n.system.writeback = .finishRead keys →
    ∀ k ∈ keys, ∀ (i : ℕ) (fs : FSAdapter), n.dirs[i]? = some fs → fs.Has k

/-- The directories keep what they have, and the loop stands where it stood. -/
theorem Persisted.of_keeps (h : n.Persisted) (hw : n'.system.writeback = n.system.writeback)
    (hkeeps : ∀ (i : ℕ) (fs' : FSAdapter), n'.dirs[i]? = some fs' →
      ∃ fs, n.dirs[i]? = some fs ∧ FSAdapter.Keeps fs fs') : n'.Persisted := by
  refine ⟨fun i fs' f hfs' => ?_, fun keys => ?_⟩ <;> rw [hw]
  · obtain ⟨fs, hfs, hk⟩ := hkeeps i fs' hfs'
    exact fun hf hne x hx => (h.stores i fs f hfs hf hne x hx).imp id hk.has
  · intro hdone k hk i fs' hfs'
    obtain ⟨fs, hfs, hkeep⟩ := hkeeps i fs' hfs'
    exact hkeep.has (h.done keys hdone k hk i fs hfs)

/-- A step of the write-back loop. -/
theorem Persisted.writeback {system : System} (h : n.Persisted) (hc : n.Coherent blake3)
    (hs : n.system.step blake3 .writeback = some system) :
    ({ n with system } : Node).Persisted := by
  obtain ⟨⟨srv', l2s', w'⟩, hstep, rfl⟩ := Option.map_eq_some_iff.mp hs
  have hdoes := Writeback.does_of_step hstep
  obtain ⟨hstores, hdone⟩ := h
  have hlen := hc.length
  suffices hw : (∀ (i : ℕ) (fs : FSAdapter) (f : StoreFuture), n.dirs[i]? = some fs →
      w'.futures[i]? = some f → f ≠ .raised → ∀ x ∈ w'.chunks, x ∈ f.todo ∨ fs.Has x.1) ∧
      ∀ keys, w' = .finishRead keys →
        ∀ k ∈ keys, ∀ (i : ℕ) (fs : FSAdapter), n.dirs[i]? = some fs → fs.Has k from ⟨hw.1, hw.2⟩
  revert hstores hdone hstep
  generalize n.system.writeback = w at hdoes
  intro hstep hstores hdone
  cases hdoes with
  | @submit locked futures hlt =>
    refine ⟨fun i fs f hfs hf hne x hx => ?_, by rintro _ ⟨⟩⟩
    rcases Nat.lt_or_ge i futures.length with hi | hi
    · have hf : futures[i]? = some f := (List.getElem?_append_left hi).symm.trans hf
      exact hstores i fs f hfs hf hne x hx
    · have hnew := List.mem_of_getElem? ((List.getElem?_append_right hi).symm.trans hf)
      rw [List.mem_singleton.mp hnew]
      exact Or.inl hx
  | @stored locked futures hall =>
    refine ⟨fun i fs f hfs hf => ?_, ?_⟩
    · cases hf
    · rintro _ ⟨⟩ k hk i fs hfs
      obtain ⟨x, hx, rfl⟩ := List.mem_map.mp hk
      have hi := (List.getElem?_eq_some_iff.mp hfs).1
      have hi : i < futures.length := by
        have := Writeback.length_le_of_finishRead hstep
        omega
      have hok := Writeback.eq_ok_of_await hall _ (List.getElem_mem hi)
      rcases hstores i fs .ok hfs (hok ▸ List.getElem?_eq_getElem hi) (by rintro ⟨⟩) x hx
        with hx | hx
      · cases hx
      · exact hx
  | raised => exact ⟨hstores, by rintro _ ⟨⟩⟩
  | _ => exact ⟨by rintro _ _ _ _ ⟨⟩, by rintro _ ⟨⟩⟩

/-- No step removes or changes a file, a restart included. -/
theorem keeps_step {l : NodeLabel} (hc : n.Coherent blake3) (hs : n.step blake3 l = some n') :
    ∀ (i : ℕ) (fs' : FSAdapter), n'.dirs[i]? = some fs' →
      ∃ fs, n.dirs[i]? = some fs ∧ FSAdapter.Keeps fs fs' := by
  have hset : ∀ {i : ℕ} {fs fs' : FSAdapter} {l : FSLabel}, n.dirs[i]? = some fs →
      fs.step l = some fs' → ∀ (j : ℕ) (fs₁ : FSAdapter), (n.dirs.set i fs')[j]? = some fs₁ →
      ∃ fs, n.dirs[j]? = some fs ∧ FSAdapter.Keeps fs fs₁ := by
    intro i fs fs' l hfs hstep j fs₁ hfs₁
    rcases eq_or_getElem?_of_set hfs₁ with ⟨rfl, rfl⟩ | ⟨-, hfs₁⟩
    · exact ⟨fs, hfs, ((hc.reachable _ fs hfs).fresh.step hstep).2⟩
    · exact ⟨fs₁, hfs₁, fun _ _ => id⟩
  cases steps_of_step hs with
  | run => exact fun i fs hfs => ⟨fs, hfs, fun _ _ => id⟩
  | take hfs htask hstep => exact hset hfs hstep
  | disk hl hfs hstep hsys => exact hset hfs hstep
  | restart chunkSize capacity pool left =>
    intro i fs' hfs'
    rw [List.getElem?_mapIdx] at hfs'
    obtain ⟨fs, hfs, rfl⟩ := Option.map_eq_some_iff.mp hfs'
    refine ⟨fs, hfs, fun name data hdata => ?_⟩
    rwa [FSAdapter.crash, FSAdapter.stored?, FSAdapter.get?_leave]

theorem Persisted.step {l : NodeLabel} (h : n.Persisted) (hc : n.Coherent blake3)
    (hs : n.step blake3 l = some n') : n'.Persisted := by
  have hkeeps := keeps_step hc hs
  cases steps_of_step hs with
  | @run l system hl hsys =>
    have hsame : system.writeback = n.system.writeback →
        ({ n with system } : Node).Persisted := fun hw => h.of_keeps hw hkeeps
    cases l with
    | recv =>
      obtain ⟨-, rfl⟩ := System.step_recv hsys
      exact hsame rfl
    | handler =>
      obtain ⟨m, hd, srv', hd', -, -, rfl⟩ := System.step_handler hsys
      exact hsame rfl
    | worker =>
      obtain ⟨srv', l2s', w', -, rfl⟩ := System.step_worker hsys
      exact hsame rfl
    | evictor =>
      obtain rfl := System.step_evictor hsys
      exact hsame rfl
    | writeback => exact h.writeback hc hsys
    | l2 i act => exact (hl i act rfl).elim
  | take => exact h.of_keeps rfl hkeeps
  | @disk i l fs fs' system hl hfs hstep hsys =>
    obtain ⟨hchunks, hdone, hother, hthis⟩ := (hc.synced i fs hfs).storeGoesOn hstep hsys
    have hkeep := ((hc.reachable i fs hfs).fresh.step hstep).2
    refine ⟨fun j fs₁ f hfs₁ hf hne x hx => ?_, fun keys hk k hmem j fs₁ hfs₁ => ?_⟩
    · have hchunk : x ∈ n.system.writeback.chunks := hchunks ▸ hx
      rcases eq_or_getElem?_of_set hfs₁ with ⟨rfl, rfl⟩ | ⟨hij, hfs₁⟩
      · obtain ⟨f₀, hf₀, hne₀, hsub⟩ := hthis f hf hne
        rcases h.stores _ fs f₀ hfs hf₀ hne₀ x hchunk with htodo | hhas
        · exact hsub x htodo
        · exact Or.inr (hkeep.has hhas)
      · exact h.stores j fs₁ f hfs₁ ((hother j hij.symm).symm.trans hf) hne x hchunk
    · obtain ⟨fs₀, hfs₀, hk₀⟩ := hkeeps j fs₁ hfs₁
      exact hk₀.has (h.done keys (hdone keys hk) k hmem j fs₀ hfs₀)
  | restart => exact ⟨by rintro _ _ _ _ ⟨⟩, by rintro _ ⟨⟩⟩

theorem persisted_new (chunkSize capacity : ℕ) (pool : ℕ → UInt8) (adapters : ℕ) :
    (new chunkSize capacity pool adapters).Persisted :=
  ⟨by rintro _ _ _ _ ⟨⟩, by rintro _ ⟨⟩⟩

theorem persisted_of_run {chunkSize capacity adapters : ℕ} {pool : ℕ → UInt8}
    {labels : List NodeLabel}
    (h : Run (step blake3) (Distinct blake3) (new chunkSize capacity pool adapters) labels n) :
    n.Coherent blake3 ∧ n.Persisted :=
  h.invariant (fun t => t.Coherent blake3 ∧ t.Persisted)
    ⟨coherent_new _ _ _ _, persisted_new _ _ _ _⟩ fun _ _ _ ⟨hc, hp⟩ hd hs =>
      ⟨hc.step hd hs, hp.step hc hs⟩

theorem length_dirs {l : NodeLabel} (hs : n.step blake3 l = some n') :
    n'.dirs.length = n.dirs.length := by
  cases steps_of_step hs with
  | run => rfl
  | take | disk => exact List.length_set ..
  | restart => exact List.length_mapIdx ..

/-- Over a run every directory keeps its files. -/
theorem keeps_of_run {labels : List NodeLabel} (hc : n.Coherent blake3)
    (hrun : Run (step blake3) (Distinct blake3) n labels n') :
    n'.dirs.length = n.dirs.length ∧ ∀ (i : ℕ) (fs' : FSAdapter), n'.dirs[i]? = some fs' →
      ∃ fs, n.dirs[i]? = some fs ∧ FSAdapter.Keeps fs fs' := by
  refine (hrun.invariant (fun t => t.Coherent blake3 ∧ t.dirs.length = n.dirs.length ∧
    ∀ (i : ℕ) (fs' : FSAdapter), t.dirs[i]? = some fs' →
      ∃ fs, n.dirs[i]? = some fs ∧ FSAdapter.Keeps fs fs')
    ⟨hc, rfl, fun i fs hfs => ⟨fs, hfs, fun _ _ => id⟩⟩ ?_).2
  rintro t l t' ⟨ht, hlen, hk⟩ hd hs
  refine ⟨ht.step hd hs, (length_dirs hs).trans hlen, fun i fs' hfs' => ?_⟩
  obtain ⟨fs₁, hfs₁, hk₁⟩ := keeps_step ht hs i fs' hfs'
  obtain ⟨fs, hfs, hk₀⟩ := hk i fs₁ hfs₁
  exact ⟨fs, hfs, fun name data hdata => hk₁ name data (hk₀ name data hdata)⟩

/-- Durability : when the write-back loop is through with a batch, every chunk of it has a file in
every directory; and whatever the process does then, and however often it dies, the directory still
has that file, with the same bytes. -/
theorem written_back_durable {chunkSize capacity adapters : ℕ} {pool : ℕ → UInt8}
    {labels labels' : List NodeLabel} {keys : List ChunkKey}
    (h : Run (step blake3) (Distinct blake3) (new chunkSize capacity pool adapters) labels n)
    (hdone : n.system.writeback = .finishRead keys)
    (hrun : Run (step blake3) (Distinct blake3) n labels' n') :
    ∀ k ∈ keys, ∀ i < adapters, ∃ fs fs' data, n.dirs[i]? = some fs ∧ n'.dirs[i]? = some fs' ∧
      fs.stored? (filename k) = some data ∧ fs'.stored? (filename k) = some data := by
  obtain ⟨hc, hp⟩ := persisted_of_run h
  have hlen := (keeps_of_run (coherent_new chunkSize capacity pool adapters) h).1
  obtain ⟨hlen', hkeeps⟩ := keeps_of_run hc hrun
  intro k hk i hi
  have hi' : i < n'.dirs.length := by
    rw [hlen', hlen]
    simpa [new] using hi
  have hfs' := List.getElem?_eq_getElem hi'
  obtain ⟨fs, hfs, hkeep⟩ := hkeeps i _ hfs'
  obtain ⟨data, hdata⟩ := Option.isSome_iff_exists.mp (hp.done keys hdone k hk i fs hfs)
  exact ⟨fs, _, data, hfs, hfs', hdata, hkeep _ data hdata⟩

/-- The chunk is still there when the next process has loaded it. -/
theorem written_back_durable_sample : ∃ n n' fs fs' data, sample sampleWriteBack = some n ∧
    n.system.writeback = .finishRead [System.sampleKey 1] ∧
    replay (step System.sampleDigest)
      (fun n l => decide (n.Distinct System.sampleDigest l ∧ n.Apart)) n
      (.restart 1 2 (fun _ => 0) [] :: sampleReload) = some n' ∧
    n.dirs[0]? = some fs ∧ n'.dirs[0]? = some fs' ∧
    fs.stored? (filename (System.sampleKey 1)) = some data ∧
    fs'.stored? (filename (System.sampleKey 1)) = some data := by
  have hrun : (sample sampleWriteBack).map (fun n =>
      (decide (n.system.writeback = .finishRead [System.sampleKey 1]),
        (replay (step System.sampleDigest)
          (fun n l => decide (n.Distinct System.sampleDigest l ∧ n.Apart)) n
          (.restart 1 2 (fun _ => 0) [] :: sampleReload)).isSome)) = some (true, true) := by decide
  obtain ⟨n, hn, he⟩ := Option.map_eq_some_iff.mp hrun
  obtain ⟨hdone, hnext⟩ := Prod.mk.inj he
  obtain ⟨n', hn'⟩ := Option.isSome_iff_exists.mp hnext
  obtain ⟨fs, fs', data, hfs, hfs', hdata, hdata'⟩ := written_back_durable
    ((run_of_sample hn).mono fun _ _ hok => hok.1) (of_decide_eq_true hdone)
    ((run_of_replay hn').mono fun _ _ hok => (of_decide_eq_true hok).1) _ List.mem_cons_self 0
    Nat.one_pos
  exact ⟨n, n', fs, fs', data, hn, of_decide_eq_true hdone, hn', hfs, hfs', hdata, hdata'⟩

end Node

end MiniLlmcache
