import MiniLlmcache.LookupReach
import MiniLlmcache.PrefixEviction
import MiniLlmcache.Retrieve
import MiniLlmcache.WriteBack

/-!
# Deployments beside each other

Engines of several deployments share one server. A LOOKUP goes by model and world size, but a chunk
is filed under its hash, its model and its rank, so an engine is told of chunks that were stored by
engines of another world size (`other_world_size_counted`).

By model and rank the deployments are apart. `answers_isolated` compares two histories of two
servers : what a LOOKUP is told and what a RETRIEVE is sent are the same in both, as soon as the
instances of the model and the ranks in question have stored the same chunks, whatever everybody
else has stored.

A `History` is the server with a log of what was stored, and by whom. While nothing is evicted and
an adapter counts only what was stored in it, the worker never loads, no entry goes, and the log
says exactly which keys are readable (`Tracks`). So each answer is a function of the log, and of the
part of it that has the model and the ranks of the question.
-/

namespace MiniLlmcache

open L1Manager

variable {blake3 : Bytes → Bytes}

/-! ## Sections that remove nothing -/

namespace L1Manager

variable {l1 l1' l1'' : L1Manager}

/-- No entry goes or changes its slice, none is temporary, and `new` are the keys that become
readable. -/
structure Opens (l1 l1' : L1Manager) (new : List ChunkKey) : Prop where
  stays : ∀ k e, l1.entries.get? k = some e → ∃ e', l1'.entries.get? k = some e' ∧ e'.obj = e.obj
  readable : ∀ k, l1'.Readable k ↔ l1.Readable k ∨ k ∈ new
  resident : l1'.Resident

theorem Resident.opens (h : l1.Resident) (he : l1'.entries = l1.entries) : l1.Opens l1' [] where
  stays k e hk := ⟨e, he ▸ hk, rfl⟩
  readable k := by simp [Readable, he]
  resident k e hk := h k e (he ▸ hk)

theorem Opens.trans (h : l1.Opens l1' []) (h' : l1'.Opens l1'' []) : l1.Opens l1'' [] where
  stays k e he := by
    obtain ⟨e', he', hobj⟩ := h.stays k e he
    obtain ⟨e'', he'', hobj'⟩ := h'.stays k e' he'
    exact ⟨e'', he'', hobj'.trans hobj⟩
  readable k := by simp [h'.readable, h.readable]
  resident := h'.resident

/-- An entry whose counters change. -/
theorem Resident.opens_setEntry (h : l1.Resident) {k : ChunkKey} {e e' : Entry}
    (he : l1.entries.get? k = some e) (hobj : e'.obj = e.obj)
    (hlock : e'.writeLocked = e.writeLocked) (htmp : e'.isTemporary = false) :
    l1.Opens (l1.setEntry k e') [] := by
  refine ⟨fun k' e₁ he₁ => ?_, fun k' => ?_, h.setEntry htmp⟩
  · rw [L1Manager.setEntry, OrderedDict.get?_set]
    split_ifs with hk
    · subst hk
      rw [he] at he₁
      exact ⟨e', rfl, by rw [hobj, Option.some.inj he₁]⟩
    · exact ⟨e₁, he₁, rfl⟩
  · simp [(silent_of_get? he hlock).readable]

theorem Resident.opens_holdAll : ∀ (keys : List ChunkKey) {l1 : L1Manager}, l1.Resident →
    l1.Opens (l1.holdAll keys) []
  | [], _, h => h.opens rfl
  | k :: keys, l1, h => by
    rcases he : l1.entries.get? k with _ | e
    · simp only [holdAll, he]
      exact h.opens_holdAll keys
    · simp only [holdAll, he]
      have hset : l1.Opens (l1.hold k e) [] := h.opens_setEntry he rfl rfl (h k e he)
      exact hset.trans (hset.resident.opens_holdAll keys)

theorem Resident.opens_reserveRead : ∀ (keys : List ChunkKey) {l1 : L1Manager}, l1.Resident →
    l1.Opens (l1.reserveRead keys).2 []
  | [], _, h => h.opens rfl
  | k :: keys, l1, h => by
    rw [reserveRead]
    split
    · exact h.opens_reserveRead keys
    · rename_i e he
      split_ifs
      · have hset : l1.Opens (l1.hold k e) [] := h.opens_setEntry he rfl rfl (h k e he)
        exact hset.trans (hset.resident.opens_reserveRead keys)
      · exact h.opens_reserveRead keys

theorem Resident.opens_promote : ∀ (keys : List ChunkKey) {l1 : L1Manager}, l1.Resident →
    l1.Opens (l1.promote keys) []
  | [], _, h => h.opens rfl
  | k :: keys, l1, h => by
    rcases he : l1.entries.get? k with _ | e
    · simp only [promote, he]
      exact h.opens_promote keys
    · simp only [promote, he]
      have hset : l1.Opens (l1.setEntry k { e with isTemporary := false }) [] :=
        h.opens_setEntry he rfl rfl rfl
      exact hset.trans (hset.resident.opens_promote keys)

/-- Of resident entries none is freed, also when a key is missing. -/
theorem Resident.opens_finishReadLoop : ∀ (keys touched : List ChunkKey) {l1 : L1Manager},
    l1.Resident → l1.Opens (finishRead.loop l1 keys [] touched).state []
  | [], touched, l1, h => by
    refine h.opens ?_
    rw [finishRead.loop]
    split_ifs <;> rfl
  | k :: keys, touched, l1, h => by
    rcases he : l1.entries.get? k with _ | e
    · simp only [finishRead.loop, he]
      exact h.opens rfl
    · have hstays : ¬(e.readCount - 1 = 0 ∧ e.isTemporary = true) := by simp [h k e he]
      simp only [finishRead.loop, he, if_neg hstays]
      have hset : l1.Opens (l1.setEntry k { e with readCount := e.readCount - 1 }) [] :=
        h.opens_setEntry he rfl rfl (h k e he)
      exact hset.trans (hset.resident.opens_finishReadLoop keys (touched ++ [k]))

theorem Resident.opens_finishRead (h : l1.Resident) {keys : List ChunkKey}
    (hs : (l1.finishRead keys).state = l1') : l1.Opens l1' [] :=
  hs ▸ h.opens_finishReadLoop keys []

/-- Only a missing key gets a slot. -/
theorem get?_slices_of_present {k : ChunkKey} {e : Entry} (he : l1.entries.get? k = some e)
    (keys : List ChunkKey) (objs : List MemoryObj) : (l1.slices keys objs).get? k = none := by
  rw [slices, OrderedDict.get?_empty_setAll_eq_none]
  intro hmem
  obtain ⟨p, hp, rfl⟩ := List.mem_map.mp hmem
  rw [(mem_missing.mp (List.of_mem_zip hp).1).2] at he
  cases he

theorem reservedObj_of_present {k : ChunkKey} {e : Entry} (he : l1.entries.get? k = some e)
    (keys : List ChunkKey) (n : ℕ) (t : Bool) :
    reservedObj (l1.reserveWrite keys n t).1 k = none := by
  rcases ha : l1.allocator.allocate (l1.missing keys).length n with ⟨_ | objs, a⟩
  · rw [reserveWrite_of_none ha, reservedObj, OrderedDict.get?_fromKeys]
    split_ifs <;> rfl
  · rw [(reserveWrite_of_some ha).1, get?_slices_of_present he]

/-- A STORE's new entries are write-locked. -/
theorem Resident.opens_reserveWrite (h : l1.Resident) (keys : List ChunkKey) (n : ℕ) :
    l1.Opens (l1.reserveWrite keys n false).2 [] := by
  rcases ha : l1.allocator.allocate (l1.missing keys).length n with ⟨_ | objs, a⟩
  · rw [reserveWrite_of_none ha]
    exact h.opens rfl
  · obtain ⟨-, -, hentries⟩ := reserveWrite_of_some (t := false) ha
    refine ⟨fun k e he => ⟨e, ?_, rfl⟩, fun k => ?_, resident_reserveWrite h keys n⟩
    · rw [hentries, get?_slices_of_present he]
      exact he
    · simp [(silent_reserveWrite l1 keys n false).readable]

/-- A key that is there gets no slot, whoever asks. -/
theorem Resident.opens_reserveWrite_present (h : l1.Resident) {key : ChunkKey} (n : ℕ) (t : Bool)
    (hkey : l1.entries.contains key = true) :
    reservedObj (l1.reserveWrite [key] n t).1 key = none ∧
      l1.Opens (l1.reserveWrite [key] n t).2 [] := by
  obtain ⟨hnone, hentries⟩ := reserveWrite_of_present n t hkey
  refine ⟨hnone, fun k e he => ⟨e, (hentries k).trans he, rfl⟩, fun k => ?_, fun k e he => ?_⟩
  · simp [Readable, hentries]
  · exact h k e (hentries k ▸ he)

/-- The keys of a STORE that is finished become readable. -/
theorem Resident.opens_finishWrite (h : l1.Resident) {keys : List ChunkKey}
    (hkeys : ∀ k ∈ keys, (l1.entries.get? k).isSome) :
    ∃ l1', l1.finishWrite keys = .returned l1' () ∧ l1.Opens l1' keys := by
  obtain ⟨l1', hfinish, -, hentries⟩ := finishWrite_of_present keys keys l1 hkeys
  refine ⟨l1', hfinish, fun k e he => ?_, fun k => ?_, resident_finishWriteLoop keys h hfinish⟩
  · rw [hentries, he]
    refine ⟨_, rfl, ?_⟩
    split_ifs <;> rfl
  · simp only [Readable, hentries]
    rcases he : l1.entries.get? k with _ | e
    · have hk : k ∉ keys := fun hk => by simpa [he] using hkeys k hk
      simp [hk]
    · by_cases hk : k ∈ keys <;> simp [hk]

end L1Manager

/-! ## Engines and what they own -/

/-- Chunks of this engine are filed under its model and its rank. -/
def EngineInstance.Owns (inst : EngineInstance) (key : ChunkKey) : Prop :=
  key.model = inst.model ∧ key.rank = inst.rank

theorem CacheServer.owns_of_mem_opKeys {srv : CacheServer} {op : LoadStoreOp}
    {inst : EngineInstance} {k : ChunkKey} (h : k ∈ srv.opKeys blake3 op inst) : inst.Owns k := by
  rw [opKeys, keysFor_singleton] at h
  obtain ⟨hash, -, rfl⟩ := List.mem_map.mp h
  exact ⟨rfl, rfl⟩

namespace Handler

variable {srv srv' : CacheServer} {hd hd' : Handler} {owner : Option EngineInstance}

/-- The engine that a STORE or a RETRIEVE looks up when it begins. -/
def engine (srv : CacheServer) : Handler → Option EngineInstance
  | start (.store p) | start (.retrieve p) => srv.instances.get? p.instanceId
  | _ => none

/-- The slices of a STORE that is about to release its write locks. -/
def finishes : Handler → List StoreItem
  | storeCopy filled [] => filled
  | _ => []

/-- The keys that a STORE has still to fill. -/
def unfilled : Handler → List ChunkKey
  | storeCopy _ todo => todo.map StoreItem.key
  | _ => []

/-- The owner is known, and the keys are its own. -/
def Owned (owner : Option EngineInstance) (keys : List ChunkKey) : Prop :=
  ∃ inst, owner = some inst ∧ ∀ k ∈ keys, inst.Owns k

/-- A STORE or a RETRIEVE works on its engine's keys. What a STORE has filled was written for its
key, and nothing was for the rest; the views of a RETRIEVE are on the entries of its keys. -/
def Tracks (srv : CacheServer) (owner : Option EngineInstance) : Handler → Prop
  | storeReserve keys _ _ | retrieveRead _ keys _ => Owned owner keys
  | storeCopy filled todo => Owned owner ((filled ++ todo).map StoreItem.key) ∧
      (∀ item ∈ filled, (item.key, item.blob) ∈ srv.written) ∧
      ∀ item ∈ todo, ∀ blob, (item.key, blob) ∉ srv.written
  | retrieveSend _ keys objs => Owned owner keys ∧ keys.length = objs.length ∧
      ∀ v ∈ keys.zip objs, ∃ e, srv.l1.entries.get? v.1 = some e ∧ e.obj = v.2
  | _ => True

/-- What another thread's step leaves to this one. -/
theorem Tracks.frame (h : hd.Tracks srv owner) {new : List ChunkKey}
    (hl1 : srv.l1.Opens srv'.l1 new) (hsub : ∀ q ∈ srv.written, q ∈ srv'.written)
    (hnew : ∀ q ∈ srv'.written, q ∈ srv.written ∨ q.1 ∉ hd.unfilled) : hd.Tracks srv' owner := by
  cases hd with
  | storeCopy filled todo =>
    refine ⟨h.1, fun item hi => hsub _ (h.2.1 item hi), fun item hi blob hb => ?_⟩
    rcases hnew _ hb with hb | hb
    · exact h.2.2 item hi blob hb
    · exact hb (List.mem_map_of_mem hi)
  | retrieveSend r keys objs =>
    refine ⟨h.1, h.2.1, fun v hv => ?_⟩
    obtain ⟨e, he, hobj⟩ := h.2.2 v hv
    obtain ⟨e', he', hobj'⟩ := hl1.stays v.1 e he
    exact ⟨e', he', hobj'.trans hobj⟩
  | _ => exact h

/-- What a handler's step does to L1 : nothing goes, and a STORE that ends makes its keys
readable. -/
theorem opens_step (hres : srv.l1.Resident)
    (hkeys : ∀ k ∈ hd.finishes.map StoreItem.key, (srv.l1.entries.get? k).isSome)
    (hs : hd.Does blake3 srv srv' hd') :
    srv.l1.Opens srv'.l1 (hd.finishes.map StoreItem.key) := by
  cases hs with
  | dispatch m => exact hres.opens (congrArg _ (l1_dispatch srv m))
  | reserve keys n chunks => exact hres.opens_reserveWrite keys n
  | finishWrite hfinish =>
    obtain ⟨l1', hl1', hopens⟩ := hres.opens_finishWrite hkeys
    cases hl1'.symm.trans hfinish
    exact hopens
  | finishWriteFail hfinish =>
    obtain ⟨l1', hl1', -⟩ := hres.opens_finishWrite hkeys
    cases hl1'.symm.trans hfinish
  | promote requestId keys => exact hres.opens_promote keys
  | release hrel =>
    rw [CacheServer.eq_of_releaseHeld.1 _ hrel]
    exact hres.opens rfl
  | releaseFail hrel =>
    rw [CacheServer.eq_of_releaseHeld.2 _ hrel]
    exact hres.opens rfl
  | finishRead hl1 => exact hres.opens_finishRead (congrArg Outcome.state hl1)
  | finishReadFail hl1 => exact hres.opens_finishRead (congrArg Outcome.state hl1)
  | _ => exact hres.opens rfl

/-- A handler writes the blob of the item it fills. -/
theorem written_step (hs : hd.Does blake3 srv srv' hd') : srv'.written = srv.written ∨
    ∃ filled item todo, hd = storeCopy filled (item :: todo) ∧
      hd' = storeCopy (filled ++ [item]) todo ∧
      srv'.written = srv.written ++ [(item.key, item.blob)] := by
  cases hs with
  | dispatch m =>
    refine Or.inl ?_
    cases m with
    | store p | retrieve p =>
      simp only [dispatch]
      split <;> rfl
    | _ => rfl
  | copy filled todo hlen => exact Or.inr ⟨filled, _, todo, rfl, rfl, rfl⟩
  | release hrel => exact Or.inl (by rw [CacheServer.eq_of_releaseHeld.1 _ hrel])
  | releaseFail hrel => exact Or.inl (by rw [CacheServer.eq_of_releaseHeld.2 _ hrel])
  | _ => exact Or.inl rfl

/-- What the handler's own step leaves. -/
theorem tracks_step (h : hd.Tracks srv owner)
    (hpresent : ∀ q ∈ srv.written, ∃ e, srv.l1.entries.get? q.1 = some e)
    (hnd : ∀ filled item todo, hd = storeCopy filled (item :: todo) →
      item.key ∉ todo.map StoreItem.key)
    (hs : hd.Does blake3 srv srv' hd') : hd'.Tracks srv' ((hd.engine srv).or owner) := by
  cases hs with
  | dispatch m =>
    cases m with
    | store p | retrieve p =>
      simp only [dispatch, engine]
      rcases hinst : srv.instances.get? p.instanceId with _ | inst
      · trivial
      · exact ⟨inst, rfl, fun k hk => CacheServer.owns_of_mem_opKeys hk⟩
    | _ => trivial
  | reserve keys n chunks =>
    obtain ⟨inst, hinst, howns⟩ := h
    refine ⟨⟨inst, hinst, fun k hk => ?_⟩, List.forall_mem_nil _, fun item hi blob hb => ?_⟩
    · obtain ⟨item, hi, rfl⟩ := List.mem_map.mp hk
      exact howns _ (List.of_mem_zip (mem_storeItems hi).1).1
    · obtain ⟨e, he⟩ := hpresent _ hb
      have hobj := (mem_storeItems hi).2
      rw [reservedObj_of_present he] at hobj
      cases hobj
  | @copy item filled todo hlen =>
    obtain ⟨howned, hfilled, htodo⟩ := h
    refine ⟨?_, fun item' hi => ?_, fun item' hi blob hb => ?_⟩
    · rwa [List.append_assoc]
    · rcases List.mem_append.mp hi with hi | hi
      · exact List.mem_append_left _ (hfilled item' hi)
      · rw [List.mem_singleton.mp hi]
        exact List.mem_append_right _ List.mem_cons_self
    · rcases List.mem_append.mp hb with hb | hb
      · exact htodo item' (List.mem_cons_of_mem _ hi) blob hb
      · have hkey : item'.key = item.key := congrArg Prod.fst (List.mem_singleton.mp hb)
        exact hnd filled item todo rfl (hkey ▸ List.mem_map_of_mem hi)
  | read hok => exact ⟨h, read_ok hok⟩
  | finishRead => split_ifs <;> trivial
  | _ => trivial

/-- No handler publishes hits. -/
theorem hits_of_does (hs : hd.Does blake3 srv srv' hd') {r : String} {c : ℕ × ℕ}
    (h : srv'.hits.get? r = some (some c)) : srv.hits.get? r = some (some c) := by
  cases hs with
  | dispatch m => rwa [(dispatch_frame blake3 srv m).2.1] at h
  | startSession job =>
    rcases OrderedDict.eq_or_get?_of_set h with ⟨-, he⟩ | h
    · cases he
    · exact h
  | release hrel => rwa [CacheServer.eq_of_releaseHeld.1 _ hrel] at h
  | releaseFail hrel => rwa [CacheServer.eq_of_releaseHeld.2 _ hrel] at h
  | pop requestId =>
    rw [CacheServer.popSession, OrderedDict.get?_erase] at h
    split_ifs at h
    exact h
  | _ => exact h

end Handler

/-! ## A worker that loads nothing -/

/-- The length of the longest prefix of `keys` in `known`. -/
def leading (known keys : List ChunkKey) : ℕ := (keys.takeWhile fun k => k ∈ known).length

theorem leading_le (known keys : List ChunkKey) : leading known keys ≤ keys.length :=
  (List.takeWhile_sublist _).length_le

theorem L1Manager.readablePrefix_eq {l1 : L1Manager} {known : List ChunkKey}
    (h : ∀ k, l1.Readable k ↔ k ∈ known) : ∀ keys : List ChunkKey,
      l1.readablePrefix keys = leading known keys
  | [] => rfl
  | key :: keys => by
    have ih := readablePrefix_eq h keys
    have hkey := h key
    rw [leading] at ih
    rw [readablePrefix, leading, List.takeWhile_cons]
    rcases he : l1.entries.get? key with _ | e
    · simp only [Readable, he, reduceCtorEq, false_and, exists_false, false_iff] at hkey
      simp [hkey]
    · simp only [Readable, he, Option.some.injEq, exists_eq_left'] at hkey
      by_cases hw : e.writeLocked = false
      · simp [Entry.readable, hw, hkey.mp hw, ih]
      · simp [Entry.readable, hw, mt hkey.mpr hw]

/-- The longest of the answers is one of them, if there is any. -/
theorem mem_of_foldl_max : ∀ (ns : List ℕ) (m : ℕ), ns.foldl max m = m ∨ ns.foldl max m ∈ ns
  | [], _ => Or.inl rfl
  | n :: ns, m => by
    rw [List.foldl_cons]
    rcases mem_of_foldl_max ns (max m n) with h | h
    · rw [h]
      refine (max_choice m n).imp id fun hn => ?_
      rw [hn]
      exact List.mem_cons_self
    · exact Or.inr (List.mem_cons_of_mem _ h)

/-- What was collected are the results of the futures. -/
theorem mem_of_collect : ∀ {futures : List Future} {ns : List ℕ}, collect futures = some (.ok ns) →
    ∀ n ∈ ns, some (.ok n) ∈ futures
  | [], ns, h, n, hn => by
    cases h
    cases hn
  | none :: _, _, h, _, _ => by cases h
  | some (.error _) :: _, _, h, _, _ => by cases h
  | some (.ok m) :: futures, ns, h, n, hn => by
    simp only [collect] at h
    obtain ⟨r, hr, hmap⟩ := Option.map_eq_some_iff.mp h
    cases r with
    | error e => cases hmap
    | ok rest =>
      cases hmap
      rcases List.mem_cons.mp hn with rfl | hn
      · exact List.mem_cons_self
      · exact List.mem_cons_of_mem _ (mem_of_collect hr n hn)

/-- Nothing has been reserved for a load, and the hits are the prefix that was in L1. -/
structure Prefetch.Unloaded (p : Prefetch) (seen : List ChunkKey) : Prop where
  load : p.load = []
  loaded : p.loaded = 0
  l1Hits : p.l1Hits = leading seen p.job.keys

theorem Prefetch.Unloaded.length_l1Keys {p : Prefetch} {seen : List ChunkKey}
    (h : p.Unloaded seen) : p.l1Keys.length = leading seen p.job.keys := by
  rw [l1Keys, List.length_take, h.l1Hits, min_eq_left (leading_le _ _)]

theorem Prefetch.Unloaded.loadedKeys {p : Prefetch} {seen : List ChunkKey} (h : p.Unloaded seen) :
    p.loadedKeys = [] := by
  simp [Prefetch.loadedKeys, h.load]

theorem Prefetch.Unloaded.surplusKeys {p : Prefetch} {seen : List ChunkKey} (h : p.Unloaded seen) :
    p.surplusKeys = [] := by
  simp [Prefetch.surplusKeys, h.load]

namespace Worker

variable {srv srv' : CacheServer} {l2s l2s' : List Adapter} {w w' : Worker}
  {known known' seen : List ChunkKey}

/-- The worker searches L1 in its next step. -/
def searches : Worker → Bool
  | prefetch _ => true
  | _ => false

/-- The worker never loads : what an adapter counts is among the keys `known`, which are in L1, so
the first key to reserve gets no slot. The hits are those among the keys `seen` in the search. -/
def Tracks (known seen : List ChunkKey) : Worker → Prop
  | lookup job _ hit futures => hit = leading seen job.keys ∧
      ∀ n, some (.ok n) ∈ futures → ∀ k ∈ (job.keys.drop hit).take n, k ∈ known
  | reserve p todo => p.Unloaded seen ∧ ∀ k ∈ todo, k ∈ known
  | load p _ | finishWrite p | cleanup p => p.Unloaded seen
  | loading _ _ _ _ _ => False
  | resolve job l1Keys loadedKeys => l1Keys.length = leading seen job.keys ∧ loadedKeys = []
  | _ => True

theorem Tracks.mono (h : w.Tracks known seen) (hsub : ∀ k ∈ known, k ∈ known') :
    w.Tracks known' seen := by
  cases w with
  | lookup job n hit futures => exact ⟨h.1, fun m hm k hk => hsub k (h.2 m hm k hk)⟩
  | reserve p todo => exact ⟨h.1, fun k hk => hsub k (h.2 k hk)⟩
  | _ => exact h

theorem tracks_step (h : w.Tracks known seen) (hres : srv.l1.Resident)
    (hread : ∀ k, srv.l1.Readable k ↔ k ∈ known) (hs : w.Does srv l2s srv' l2s' w') :
    srv.l1.Opens srv'.l1 [] ∧ w'.Tracks known (if w.searches then known else seen) := by
  have hpresent : ∀ k ∈ known, srv.l1.entries.contains k = true := by
    intro k hk
    obtain ⟨e, he, -⟩ := (hread k).mpr hk
    exact OrderedDict.contains_iff.mpr (OrderedDict.mem_keys_iff.mpr ⟨e, he⟩)
  have hsame : srv.l1.Opens srv.l1 [] := hres.opens rfl
  have hhit : ∀ keys, (srv.l1.reserveReadPrefix keys).1 = leading known keys :=
    readablePrefix_eq hread
  have hholds : ∀ keys, srv.l1.Opens (srv.l1.reserveReadPrefix keys).2 [] := fun keys =>
    hres.opens_holdAll _
  cases hs with
  | take => exact ⟨hsame, trivial⟩
  | @unknown job hn =>
    refine ⟨hholds _, ?_, rfl⟩
    rw [List.length_take, hhit, min_eq_left (leading_le _ _)]
    rfl
  | @allInL1 job n hn hmiss => exact ⟨hholds _, ⟨rfl, rfl, hhit _⟩, nofun⟩
  | inL1 => exact ⟨hholds _, hhit _, nofun⟩
  | submitLookup hlen =>
    refine ⟨hsame, h.1, fun n hn => ?_⟩
    rcases List.mem_append.mp hn with hn | hn
    · exact h.2 n hn
    · cases List.mem_singleton.mp hn
  | @lookupDone job n hit futures l2Hits hcollect =>
    refine ⟨hsame, ⟨rfl, rfl, h.1⟩, fun k hk => ?_⟩
    rcases mem_of_foldl_max l2Hits 0 with hmax | hmax
    · rw [hmax, List.take_zero] at hk
      cases hk
    · exact h.2 _ (mem_of_collect hcollect _ hmax) k hk
  | @full p key todo =>
    have hkey := hpresent key (h.2 key List.mem_cons_self)
    exact ⟨(hres.opens_reserveWrite_present p.chunkNbytes true hkey).2, h.1⟩
  | @reserve p key todo obj hobj =>
    have hkey := hpresent key (h.2 key List.mem_cons_self)
    rw [(hres.opens_reserveWrite_present p.chunkNbytes true hkey).1] at hobj
    cases hobj
  | reserved p => exact ⟨hsame, h.1⟩
  | submitLoad hlen => exact (hlen (by rw [h.load, h.loaded]; rfl)).elim
  | @finishWrite p l1 hl1 =>
    rw [h.loadedKeys] at hl1
    cases hl1
    exact ⟨hres.opens rfl, h⟩
  | @finishWriteFail p l1 e hl1 =>
    rw [h.loadedKeys] at hl1
    cases hl1
  | cleanup p =>
    refine ⟨?_, h.length_l1Keys, h.loadedKeys⟩
    rw [h.surplusKeys]
    exact hres.opens rfl
  | finishRead hl1 => exact ⟨hres.opens_finishRead (congrArg Outcome.state hl1), trivial⟩
  | finishReadFail hl1 => exact ⟨hres.opens_finishRead (congrArg Outcome.state hl1), trivial⟩
  | loaded | loadRaised => exact h.elim
  | loadDone => exact ⟨hsame, h⟩
  | ended => exact ⟨hsame, trivial⟩
  | lookupRaised => exact ⟨hsame, trivial⟩
  | publish => exact ⟨hres.opens rfl, trivial⟩

end Worker

/-! ## The other threads -/

/-- Only readable entries are locked for write-back. -/
theorem L1Manager.readable_of_lockedKeys : ∀ (keys : List ChunkKey) (l1 : L1Manager),
    ∀ x ∈ lockedKeys (l1.reserveRead keys).1, l1.Readable x.1
  | [], _, x, hx => by cases hx
  | k :: keys, l1, x, hx => by
    rw [reserveRead] at hx
    split at hx
    · exact readable_of_lockedKeys keys l1 x hx
    · rename_i e he
      split at hx
      · rename_i hr
        rcases List.mem_cons.mp hx with rfl | hx
        · exact ⟨e, he, by simpa [Entry.readable] using hr⟩
        · have hhold : l1.Silent (l1.hold k e) := silent_of_get? he rfl
          exact (hhold.readable _).mp (readable_of_lockedKeys keys _ x hx)
      · exact readable_of_lockedKeys keys l1 x hx

namespace Writeback

variable {srv srv' : CacheServer} {l2s l2s' : List Adapter} {w w' : Writeback}
  {known known' : List ChunkKey}

/-- The loop works on the keys `known`. -/
def Tracks (known : List ChunkKey) (w : Writeback) : Prop :=
  (∀ p ∈ w.chunks, p.1 ∈ known) ∧ ∀ f ∈ w.futures, ∀ p ∈ f.todo, p.1 ∈ known

theorem Tracks.mono (h : w.Tracks known) (hsub : ∀ k ∈ known, k ∈ known') : w.Tracks known' :=
  ⟨fun p hp => hsub _ (h.1 p hp), fun f hf p hp => hsub _ (h.2 f hf p hp)⟩

theorem Tracks.setFutures (h : w.Tracks known) {i : ℕ} {f : StoreFuture}
    (hf : ∀ p ∈ f.todo, p.1 ∈ known) : (w.setFutures (w.futures.set i f)).Tracks known := by
  refine ⟨fun p hp => h.1 p (chunks_setFutures w _ ▸ hp), fun g hg p hp => ?_⟩
  rcases List.mem_or_eq_of_mem_set (mem_futures_setFutures hg) with hg | rfl
  · exact h.2 g hg p hp
  · exact hf p hp

theorem tracks_step (h : w.Tracks known) (hres : srv.l1.Resident)
    (hread : ∀ k, srv.l1.Readable k ↔ k ∈ known) (hs : w.Does srv l2s srv' l2s' w') :
    srv.l1.Opens srv'.l1 [] ∧ w'.Tracks known := by
  cases hs with
  | take => exact ⟨hres.opens rfl, nofun, nofun⟩
  | evicted => exact ⟨hres.opens_reserveRead _, nofun, nofun⟩
  | @reserve keys =>
    exact ⟨hres.opens_reserveRead _,
      fun p hp => (hread _).mp (readable_of_lockedKeys keys _ p hp), nofun⟩
  | submit =>
    refine ⟨hres.opens rfl, h.1, fun f hf p hp => ?_⟩
    rcases List.mem_append.mp hf with hf | hf
    · exact h.2 f hf p hp
    · rw [List.mem_singleton.mp hf] at hp
      exact h.1 p hp
  | stored => exact ⟨hres.opens rfl, nofun, nofun⟩
  | raised => exact ⟨hres.opens rfl, h⟩
  | finishRead hl1 => exact ⟨hres.opens_finishRead (congrArg Outcome.state hl1), nofun, nofun⟩
  | finishReadFail hl1 => exact ⟨hres.opens_finishRead (congrArg Outcome.state hl1), nofun, nofun⟩

end Writeback

/-- The evictor does not scan. -/
def Evictor.Rests (e : Evictor) : Prop := e = .idle ∨ e = .dead

namespace System

variable {s s' : System} {lost : Multiset ChunkKey}

/-- The pool is not full enough for an eviction. -/
def Unfilled (s : System) : Label → Prop
  | .evictor => (s.evictor.step s.server).2 ≠ .scan
  | _ => True

/-- An adapter counts in a lookup only chunks that were stored in it. -/
def CountsStored (s : System) : Label → Prop
  | .l2 i (.found n) =>
    match s.worker with
    | .lookup job _ hit _ => ∀ k ∈ (job.keys.drop hit).take n, k ∈ keysAt s.l2s i
    | _ => True
  | _ => True

instance (s : System) (l : Label) : Decidable (s.Unfilled l) := by
  unfold Unfilled
  split <;> infer_instance

instance (s : System) (l : Label) : Decidable (s.CountsStored l) := by
  unfold CountsStored
  split
  · split <;> infer_instance
  · infer_instance

variable (blake3) in
/-- Chunk hashes do not collide, the pool does not fill up, and adapters count what they have. -/
def Undisturbed (s : System) (l : Label) : Prop :=
  s.Distinct blake3 l ∧ s.Unfilled l ∧ s.CountsStored l

instance (s : System) (l : Label) : Decidable (s.Undisturbed blake3 l) := by
  unfold Undisturbed
  infer_instance

theorem evictor_rests (h : s.evictor.Rests) (hu : s.Unfilled .evictor) :
    (s.evictor.step s.server).1 = s.server ∧ (s.evictor.step s.server).2.Rests := by
  rw [Unfilled] at hu
  rcases h with h | h <;> rw [h] at hu ⊢
  · refine ⟨rfl, ?_⟩
    simp only [Evictor.step] at hu ⊢
    split_ifs at hu ⊢
    · exact Or.inr rfl
    · exact Or.inl rfl
    · exact (hu rfl).elim
  · exact ⟨rfl, Or.inr rfl⟩

/-- No other slice, of this STORE or of another one, is filled for the key that is filled next. -/
theorem Inv.not_mem_unfilled (h : s.Inv blake3 lost) {t : ℕ} {m : Req}
    {filled todo : List StoreItem} {item : StoreItem}
    (hg : s.handlers.get? t = some (m, .storeCopy filled (item :: todo))) :
    item.key ∉ todo.map StoreItem.key ∧ ∀ t' m' hd', t ≠ t' →
      s.handlers.get? t' = some (m', hd') → item.key ∉ hd'.unfilled := by
  have hslots : s.slots = (Handler.storeCopy filled (item :: todo)).slots +
      (((s.handlers.erase t).total fun _ p => p.2.slots) + s.worker.slots) := by
    rw [slots, OrderedDict.total_eq _ _ t, OrderedDict.at?, hg, Option.elim_some, add_assoc]
  have hnd := h.ledger.nodup
  rw [hslots, Multiset.map_add, Multiset.nodup_add] at hnd
  obtain ⟨hown, -, hdisjoint⟩ := hnd
  constructor
  · rw [Handler.slots, Multiset.map_add, Multiset.nodup_add] at hown
    have htodo := hown.2.1
    rw [Multiset.map_coe, Multiset.coe_nodup, List.map_cons, List.map_cons, List.nodup_cons,
      List.map_map] at htodo
    exact htodo.1
  · intro t' m' hd' hne hg' hmem
    have hitem : item.key ∈ (Handler.storeCopy filled (item :: todo)).slots.map Slot.key := by
      refine Multiset.mem_map.mpr ⟨item.slot false, Multiset.mem_add.mpr (Or.inr ?_), rfl⟩
      exact Multiset.mem_coe.mpr (List.mem_map_of_mem List.mem_cons_self)
    refine Multiset.disjoint_left.mp hdisjoint hitem ?_
    cases hd' with
    | storeCopy filled' todo' =>
      obtain ⟨item', hi, hkey⟩ := List.mem_map.mp hmem
      refine Multiset.mem_map.mpr ⟨item'.slot false, Multiset.mem_add.mpr (Or.inl ?_), hkey⟩
      refine OrderedDict.mem_total.mpr ⟨(t', m', _), OrderedDict.get?_eq_some_iff.mp
        ((OrderedDict.get?_erase_ne _ hne).trans hg'), Multiset.mem_add.mpr (Or.inr ?_)⟩
      exact Multiset.mem_coe.mpr (List.mem_map_of_mem hi)
    | _ => cases hmem

/-- A STORE's slices belong to entries. -/
theorem Inv.entry_of_item (h : s.Inv blake3 lost) {t : ℕ} {m : Req} {filled todo : List StoreItem}
    (hg : s.handlers.get? t = some (m, .storeCopy filled todo)) {item : StoreItem}
    (hi : item ∈ filled ++ todo) : ∃ e, s.server.l1.entries.get? item.key = some e := by
  have hslots : ∀ ready, item.slot ready ∈ (Handler.storeCopy filled todo).slots →
      ∃ e, s.server.l1.entries.get? item.key = some e := by
    intro ready hslot
    have hmem : item.slot ready ∈ s.slots := Multiset.mem_add.mpr (Or.inl
      (OrderedDict.mem_total.mpr ⟨(t, m, _), OrderedDict.get?_eq_some_iff.mp hg, hslot⟩))
    obtain ⟨e, he, -⟩ := h.ledger.entry_of_slot hmem
    exact ⟨e, he⟩
  rcases List.mem_append.mp hi with hi | hi
  · exact hslots true
      (Multiset.mem_add.mpr (Or.inl (Multiset.mem_coe.mpr (List.mem_map_of_mem hi))))
  · exact hslots false
      (Multiset.mem_add.mpr (Or.inr (Multiset.mem_coe.mpr (List.mem_map_of_mem hi))))

theorem Inv.finishes_present (h : s.Inv blake3 lost) {t : ℕ} {m : Req} {hd : Handler}
    (hg : s.handlers.get? t = some (m, hd)) :
    ∀ k ∈ hd.finishes.map StoreItem.key, (s.server.l1.entries.get? k).isSome := by
  intro k hk
  obtain ⟨item, hi, rfl⟩ := List.mem_map.mp hk
  cases hd with
  | storeCopy filled todo =>
    cases todo with
    | nil => exact Option.isSome_iff_exists.mpr (h.entry_of_item hg (List.mem_append_left _ hi))
    | cons => cases hi
  | _ => cases hi

/-! ## What the threads know -/

/-- The engine that a STORE or a RETRIEVE looks up in this step, with its thread. -/
def engine (s : System) : Label → Option (ℕ × EngineInstance)
  | .handler t =>
    ((s.handlers.get? t).bind fun q => q.2.engine s.server).map fun inst => (t, inst)
  | _ => none

/-- What a STORE finishes in this step. -/
def finishes (s : System) : Label → List StoreItem
  | .handler t => (s.handlers.get? t).elim [] fun q => q.2.finishes
  | _ => []

/-- The worker searches L1 in this step. -/
def searches (s : System) : Label → Bool
  | .worker => s.worker.searches
  | _ => false

/-- `engines` after a step. -/
def nextEngines (s : System) (engines : OrderedDict ℕ EngineInstance) (l : Label) :
    OrderedDict ℕ EngineInstance :=
  (s.engine l).elim engines fun q => engines.set q.1 q.2

/-- The keys `known` are those that are readable, and all that is in an adapter; each was written
once. `engines` are the engines that the threads serve, `seen` what was readable when the worker
searched L1. -/
structure Tracks (s : System) (engines : OrderedDict ℕ EngineInstance)
    (known seen : List ChunkKey) : Prop where
  evictor : s.evictor.Rests
  resident : s.server.l1.Resident
  readable : ∀ k, s.server.l1.Readable k ↔ k ∈ known
  present : ∀ q ∈ s.server.written, ∃ e, s.server.l1.entries.get? q.1 = some e
  once : ∀ k b b', (k, b) ∈ s.server.written → (k, b') ∈ s.server.written → b = b'
  mirrored : ∀ i, ∀ k ∈ keysAt s.l2s i, k ∈ known
  worker : s.worker.Tracks known seen
  writeback : s.writeback.Tracks known
  handlers : ∀ t m hd, s.handlers.get? t = some (m, hd) → hd.Tracks s.server (engines.get? t)

variable {engines : OrderedDict ℕ EngineInstance} {known seen seen' : List ChunkKey}

theorem tracks_new (chunkSize capacity : ℕ) (pool : ℕ → UInt8) (adapters : ℕ) :
    (new chunkSize capacity pool adapters).Tracks .empty [] [] where
  evictor := Or.inl rfl
  resident k e he := by cases he
  readable k := by simp [Readable, new, CacheServer.new, L1Manager.new]
  present q hq := by cases hq
  once k b b' hb := by cases hb
  mirrored i k hk := by
    simp only [keysAt, storedAt, new, List.getElem?_replicate] at hk
    split_ifs at hk <;> cases hk
  worker := trivial
  writeback := ⟨nofun, nofun⟩
  handlers t m hd hg := by cases hg

/-- A step of a thread that is not a handler : it writes nothing and finishes no STORE. -/
theorem Tracks.background (h : s.Tracks engines known seen)
    (hl1 : s.server.l1.Opens s'.server.l1 []) (hwritten : s'.server.written = s.server.written)
    (hhandlers : s'.handlers = s.handlers) (hevictor : s'.evictor.Rests)
    (hmirrored : ∀ i, ∀ k ∈ keysAt s'.l2s i, k ∈ known) (hworker : s'.worker.Tracks known seen')
    (hwriteback : s'.writeback.Tracks known) : s'.Tracks engines known seen' where
  evictor := hevictor
  resident := hl1.resident
  readable k := by simp [hl1.readable, h.readable]
  present q hq := by
    obtain ⟨e, he⟩ := h.present q (hwritten ▸ hq)
    obtain ⟨e', he', -⟩ := hl1.stays _ e he
    exact ⟨e', he'⟩
  once := by
    rw [hwritten]
    exact h.once
  mirrored := hmirrored
  worker := hworker
  writeback := hwriteback
  handlers t m hd hg := by
    rw [hhandlers] at hg
    exact (h.handlers t m hd hg).frame hl1 (fun q hq => hwritten ▸ hq) fun q hq =>
      Or.inl (hwritten ▸ hq)

theorem get?_nextEngines {t : ℕ} {m : Req} {hd : Handler}
    (hg : s.handlers.get? t = some (m, hd)) (t' : ℕ) :
    (s.nextEngines engines (.handler t)).get? t' =
      if t = t' then (hd.engine s.server).or (engines.get? t') else engines.get? t' := by
  simp only [nextEngines, engine, hg, Option.bind_some]
  rcases hd.engine s.server with _ | inst
  · simp
  · simp only [Option.map_some, Option.elim_some, Option.some_or, OrderedDict.get?_set]

/-- A blob is written at most once for a key, also by the step that fills a slice. -/
theorem Tracks.once_step (h : s.Tracks engines known seen) {t : ℕ} {m : Req} {hd hd' : Handler}
    {srv' : CacheServer} (hg : s.handlers.get? t = some (m, hd))
    (hdoes : hd.Does blake3 s.server srv' hd') :
    ∀ k b b', (k, b) ∈ srv'.written → (k, b') ∈ srv'.written → b = b' := by
  rcases Handler.written_step hdoes with hw | ⟨filled, item, todo, rfl, -, hw⟩
  · rw [hw]
    exact h.once
  · have hnew : ∀ b, (item.key, b) ∉ s.server.written :=
      (h.handlers t m _ hg).2.2 item List.mem_cons_self
    intro k b b' hb hb'
    rw [hw, List.mem_append, List.mem_singleton] at hb hb'
    rcases hb with hb | hb <;> rcases hb' with hb' | hb'
    · exact h.once k b b' hb hb'
    · cases hb'
      exact (hnew b hb).elim
    · cases hb
      exact (hnew b' hb').elim
    · exact (congrArg Prod.snd hb).trans (congrArg Prod.snd hb').symm

theorem Tracks.handler {t : ℕ} (h : s.Tracks engines known seen) (hinv : s.Inv blake3 lost)
    (hs : s.step blake3 (.handler t) = some s') :
    s'.Tracks (s.nextEngines engines (.handler t))
      (known ++ (s.finishes (.handler t)).map StoreItem.key) seen := by
  obtain ⟨m, hd, srv', hd', hg, hdoes, rfl⟩ := step_handler hs
  have hopens : s.server.l1.Opens srv'.l1 (hd.finishes.map StoreItem.key) :=
    Handler.opens_step h.resident (hinv.finishes_present hg) hdoes
  have hfinishes : s.finishes (.handler t) = hd.finishes := by rw [finishes, hg, Option.elim_some]
  have hsub : ∀ k ∈ known, k ∈ known ++ hd.finishes.map StoreItem.key :=
    fun k => List.mem_append_left _
  have hwritten := Handler.written_step hdoes
  rw [hfinishes]
  refine ⟨h.evictor, hopens.resident, fun k => ?_, fun q hq => ?_, h.once_step hg hdoes,
    fun i k hk => hsub k (h.mirrored i k hk), h.worker.mono hsub, h.writeback.mono hsub,
    fun t' m' hd'' hg' => ?_⟩
  · rw [List.mem_append, ← h.readable]
    exact hopens.readable k
  · -- what is written belongs to an entry, and entries stay
    obtain ⟨e, he⟩ : ∃ e, s.server.l1.entries.get? q.1 = some e := by
      rcases hwritten with hw | ⟨filled, item, todo, rfl, -, hw⟩
      · exact h.present q (hw ▸ hq)
      · have hq : q ∈ s.server.written ++ [(item.key, item.blob)] := hw ▸ hq
        rcases List.mem_append.mp hq with hq | hq
        · exact h.present q hq
        · rw [List.mem_singleton.mp hq]
          exact hinv.entry_of_item hg (List.mem_append_right _ List.mem_cons_self)
    obtain ⟨e', he', -⟩ := hopens.stays _ e he
    exact ⟨e', he'⟩
  · rw [get?_nextEngines hg]
    rcases eq_or_ne t t' with rfl | hne
    · rw [OrderedDict.get?_set_self] at hg'
      cases hg'
      rw [if_pos rfl]
      refine Handler.tracks_step (h.handlers t m hd hg) h.present ?_ hdoes
      rintro filled item todo rfl
      exact (hinv.not_mem_unfilled hg).1
    · rw [OrderedDict.get?_set_ne _ _ hne] at hg'
      rw [if_neg hne]
      refine (h.handlers t' m' hd'' hg').frame hopens ?_ fun q hq => ?_
      · rcases hwritten with hw | ⟨filled, item, todo, -, -, hw⟩ <;> intro q hq
        · exact hw.symm ▸ hq
        · exact hw.symm ▸ List.mem_append_left _ hq
      · rcases hwritten with hw | ⟨filled, item, todo, rfl, -, hw⟩
        · exact Or.inl (hw ▸ hq)
        · have hq : q ∈ s.server.written ++ [(item.key, item.blob)] := hw ▸ hq
          refine (List.mem_append.mp hq).imp_right fun hq => ?_
          rw [List.mem_singleton.mp hq]
          exact (hinv.not_mem_unfilled hg).2 t' m' hd'' hne hg'

theorem evictor_setLookup (s : System) (i : ℕ) (r : Except Exc ℕ) :
    (s.setLookup i r).evictor = s.evictor := by
  unfold setLookup
  split <;> rfl

theorem tracks_setLookup (h : s.worker.Tracks known seen) {r : Except Exc ℕ}
    (hr : ∀ job n hit futures, s.worker = .lookup job n hit futures → ∀ found, r = .ok found →
      ∀ k ∈ (job.keys.drop hit).take found, k ∈ known) (i : ℕ) :
    (s.setLookup i r).worker.Tracks known seen := by
  rw [setLookup]
  split
  · rename_i job n hit futures hw
    rw [hw] at h
    refine ⟨h.1, fun found hf => ?_⟩
    rcases List.mem_or_eq_of_mem_set hf with hf | hf
    · exact h.2 found hf
    · exact hr job n hit futures hw found (Option.some.inj hf).symm
  · exact h

/-- The worker waits for no load, so an adapter's step completes a lookup or moves a store on. -/
theorem Tracks.l2 {i : ℕ} {act : L2Act} (h : s.Tracks engines known seen)
    (hok : s.CountsStored (.l2 i act)) (hs : s.step blake3 (.l2 i act) = some s') :
    s'.Tracks engines known seen := by
  have hsame : s.server.l1.Opens s.server.l1 [] := h.resident.opens rfl
  have hworker := h.worker
  have hpop : ∀ j, ∀ k ∈ keysAt (s.popTask i).l2s j, k ∈ known := fun j k hk =>
    h.mirrored j k (keysAt_popTask s j i ▸ hk)
  have hlookup : ∀ r : Except Exc ℕ,
      (∀ job n hit futures, s.worker = .lookup job n hit futures → ∀ found, r = .ok found →
        ∀ k ∈ (job.keys.drop hit).take found, k ∈ known) →
      ((s.popTask i).setLookup i r).Tracks engines known seen := by
    intro r hr
    refine h.background ?_ ?_ (handlers_setLookup _ _ _) ?_ ?_
      (tracks_setLookup (s := s.popTask i) h.worker hr i) ?_
    · rw [server_setLookup]
      exact hsame
    · rw [server_setLookup]
      rfl
    · rw [evictor_setLookup]
      exact h.evictor
    · rw [l2s_setLookup]
      exact hpop
    · rw [writeback_setLookup]
      exact h.writeback
  have hstore : ∀ f : StoreFuture, (∀ p ∈ f.todo, p.1 ∈ known) →
      (s.setStore i f).Tracks engines known seen := fun f hf =>
    h.background hsame rfl rfl h.evictor h.mirrored h.worker (h.writeback.setFutures hf)
  cases l2_does hs with
  | found hits ht =>
    refine hlookup _ fun job n hit futures hw found hfound k hk => ?_
    cases hfound
    rw [CountsStored, hw] at hok
    exact h.mirrored i k (hok k hk)
  | lookupFail ht => exact hlookup _ nofun
  | fill hw | scribble hw | loaded hw | loadFail hw =>
    rw [hw] at hworker
    exact hworker.elim
  | @persist key obj todo hf =>
    have hmem := h.writeback.2 _ (List.mem_of_getElem? hf)
    have hset := hstore (.running todo) fun p hp => hmem p (List.mem_cons_of_mem _ hp)
    refine hset.background hsame rfl rfl h.evictor (fun j k hk => ?_) h.worker hset.writeback
    rw [keysAt_persist] at hk
    split_ifs at hk
    · rcases List.mem_append.mp hk with hk | hk
      · exact h.mirrored j k hk
      · rw [List.mem_singleton.mp hk]
        exact hmem (key, obj) List.mem_cons_self
    · exact h.mirrored j k hk
  | @skip p todo hf =>
    have hmem := h.writeback.2 _ (List.mem_of_getElem? hf)
    exact hstore (.running todo) fun q hq => hmem q (List.mem_cons_of_mem _ hq)
  | stored hf ht =>
    have hset := hstore .ok nofun
    exact hset.background hsame rfl rfl h.evictor hpop h.worker hset.writeback
  | storeFail ht =>
    have hset := hstore .raised nofun
    exact hset.background hsame rfl rfl h.evictor hpop h.worker hset.writeback

/-- The step lemma. -/
theorem Tracks.step {l : Label} (h : s.Tracks engines known seen) (hinv : s.Inv blake3 lost)
    (hok : s.Undisturbed blake3 l) (hs : s.step blake3 l = some s') :
    s'.Tracks (s.nextEngines engines l) (known ++ (s.finishes l).map StoreItem.key)
      (if s.searches l then known else seen) := by
  have hquiet : s'.Tracks engines known (if s.searches l then known else seen) →
      s.engine l = none → s.finishes l = [] → s'.Tracks (s.nextEngines engines l)
        (known ++ (s.finishes l).map StoreItem.key) (if s.searches l then known else seen) := by
    intro ht hengine hfinishes
    rw [nextEngines, hengine, hfinishes]
    simpa using ht
  cases l with
  | recv t m =>
    obtain ⟨-, rfl⟩ := step_recv hs
    refine hquiet ⟨h.evictor, h.resident, h.readable, h.present, h.once, h.mirrored, h.worker,
      h.writeback, fun t' m' hd' hg' => ?_⟩ rfl rfl
    rcases OrderedDict.eq_or_get?_of_set hg' with ⟨-, he⟩ | hg'
    · cases he
      trivial
    · exact h.handlers t' m' hd' hg'
  | handler t => exact h.handler hinv hs
  | worker =>
    obtain ⟨srv', l2s', w', hdoes, rfl⟩ := step_worker hs
    obtain ⟨-, hwritten, hstored⟩ := hdoes.ghosts_eq
    obtain ⟨hopens, hworker⟩ := Worker.tracks_step h.worker h.resident h.readable hdoes
    have hkeys : ∀ i, keysAt l2s' i = keysAt s.l2s i := fun i => congrArg _ (hstored i)
    refine hquiet (h.background hopens hwritten rfl h.evictor
      (fun i k hk => h.mirrored i k (hkeys i ▸ hk)) hworker h.writeback) rfl rfl
  | writeback =>
    obtain ⟨srv', l2s', w', hdoes, rfl⟩ := step_writeback hs
    obtain ⟨-, hwritten, hstored⟩ := hdoes.ghosts_eq
    obtain ⟨hopens, hwriteback⟩ := Writeback.tracks_step h.writeback h.resident h.readable hdoes
    have hkeys : ∀ i, keysAt l2s' i = keysAt s.l2s i := fun i => congrArg _ (hstored i)
    exact hquiet (h.background hopens hwritten rfl h.evictor
      (fun i k hk => h.mirrored i k (hkeys i ▸ hk)) h.worker hwriteback) rfl rfl
  | evictor =>
    obtain ⟨hserver, hrests⟩ := evictor_rests h.evictor hok.2.1
    obtain rfl := step_evictor hs
    refine hquiet (h.background ?_ ?_ rfl hrests h.mirrored h.worker h.writeback) rfl rfl
    · rw [hserver]
      exact h.resident.opens rfl
    · rw [hserver]
  | l2 i act => exact hquiet (h.l2 hok.2.2 hs) rfl rfl

theorem written_mono {l : Label} (hs : s.step blake3 l = some s') :
    ∀ q ∈ s.server.written, q ∈ s'.server.written := by
  intro q hq
  cases l with
  | recv t m =>
    obtain ⟨-, rfl⟩ := step_recv hs
    exact hq
  | handler t =>
    obtain ⟨m, hd, srv', hd', hg, hdoes, rfl⟩ := step_handler hs
    rcases Handler.written_step hdoes with hw | ⟨filled, item, todo, -, -, hw⟩
    · exact hw.symm ▸ hq
    · exact hw.symm ▸ List.mem_append_left _ hq
  | worker =>
    obtain ⟨srv', l2s', w', hdoes, rfl⟩ := step_worker hs
    exact hdoes.ghosts_eq.2.1.symm ▸ hq
  | writeback =>
    obtain ⟨srv', l2s', w', hdoes, rfl⟩ := step_writeback hs
    exact hdoes.ghosts_eq.2.1.symm ▸ hq
  | evictor =>
    obtain rfl := step_evictor hs
    exact (Evictor.ghosts_eq s.server s.evictor).2.symm ▸ hq
  | l2 i act =>
    cases l2_does hs with
    | found | lookupFail =>
      rw [server_setLookup]
      exact hq
    | fill => exact List.mem_append_left _ hq
    | _ => exact hq

/-- The job whose hits the worker publishes in this step. -/
def answers (s : System) : Label → Option Job
  | .worker =>
    match s.worker with
    | .resolve job _ _ => if s.server.hits.contains job.requestId then some job else none
    | _ => none
  | _ => none

/-- Hits change when the worker publishes them; else some may be forgotten. -/
theorem hits_of_step {l : Label} (hs : s.step blake3 l = some s') :
    (s.answers l = none ∧ ∀ r c, s'.server.hits.get? r = some (some c) →
      s.server.hits.get? r = some (some c)) ∨
    ∃ job l1Keys loadedKeys, s.answers l = some job ∧
      s.worker = .resolve job l1Keys loadedKeys ∧
      s'.server.hits =
        s.server.hits.set job.requestId (some (l1Keys.length, loadedKeys.length)) := by
  cases l with
  | recv t m =>
    obtain ⟨-, rfl⟩ := step_recv hs
    exact Or.inl ⟨rfl, fun _ _ => id⟩
  | handler t =>
    obtain ⟨m, hd, srv', hd', hg, hdoes, rfl⟩ := step_handler hs
    exact Or.inl ⟨rfl, fun _ _ => Handler.hits_of_does hdoes⟩
  | worker =>
    obtain ⟨srv', l2s', w', hdoes, rfl⟩ := step_worker hs
    simp only [answers]
    generalize s.worker = w at hdoes
    cases hdoes with
    | publish hc => exact Or.inr ⟨_, _, _, by simp [hc], rfl, rfl⟩
    | ended hc => exact Or.inl ⟨by simp [hc], fun _ _ => id⟩
    | _ => exact Or.inl ⟨rfl, fun _ _ => id⟩
  | writeback =>
    obtain ⟨srv', l2s', w', hdoes, rfl⟩ := step_writeback hs
    rw [(Writeback.sessions_step hdoes).2.1]
    exact Or.inl ⟨rfl, fun _ _ => id⟩
  | evictor =>
    obtain rfl := step_evictor hs
    refine Or.inl ⟨rfl, fun _ _ => ?_⟩
    rcases s.evictor with _ | _ | _ | _ <;> exact id
  | l2 i act =>
    refine Or.inl ⟨rfl, fun r c => ?_⟩
    cases l2_does hs with
    | found | lookupFail =>
      rw [server_setLookup]
      exact id
    | _ => exact id

end System

/-! ## Histories -/

/-- A chunk that a STORE of the engine `inst` has stored. -/
structure Stored where
  inst : EngineInstance
  key : ChunkKey
  blob : Bytes
deriving DecidableEq

/-- The server with what it has stored and answered so far; all but `system` are ghosts. -/
structure History where
  system : System
  /-- The engine that a STORE or RETRIEVE is for, by its thread. -/
  engines : OrderedDict ℕ EngineInstance
  /-- The chunks of the STOREs that have released their write locks, oldest first. -/
  stored : List Stored
  /-- `stored`, as it was when the prefetch worker last searched L1. -/
  seen : List Stored
  /-- The job that was answered last for a request, with what was `seen`. -/
  answered : OrderedDict String (Job × List Stored)

namespace History

def new (chunkSize capacity : ℕ) (pool : ℕ → UInt8) (adapters : ℕ) : History where
  system := .new chunkSize capacity pool adapters
  engines := .empty
  stored := []
  seen := []
  answered := .empty

/-- What the STORE that ends in this step has stored. -/
def stores (h : History) : Label → List Stored
  | .handler t => (h.engines.get? t).elim [] fun inst =>
    (h.system.finishes (.handler t)).map fun item => ⟨inst, item.key, item.blob⟩
  | _ => []

variable (blake3) in
/-- One step of the system, and what it adds to the history. -/
def step (h : History) (l : Label) : Option History :=
  (h.system.step blake3 l).map fun s =>
    { system := s
      engines := h.system.nextEngines h.engines l
      stored := h.stored ++ h.stores l
      seen := if h.system.searches l then h.stored else h.seen
      answered := (h.system.answers l).elim h.answered fun job =>
        h.answered.set job.requestId (job, h.seen) }

variable (blake3) in
/-- A history in which chunk hashes do not collide, the pool does not fill up, and adapters count
what they have. -/
def Reachable (h : History) : Prop :=
  ∃ chunkSize capacity pool adapters ls, Run (step blake3)
    (fun h l => h.system.Undisturbed blake3 l) (new chunkSize capacity pool adapters) ls h

variable {h h' : History} {lost : Multiset ChunkKey}

/-- The keys of a log. -/
def keysOf (log : List Stored) : List ChunkKey := log.map Stored.key

/-- The log tells what is readable, and whose it is; the hits published are those it had. -/
structure Tracks (h : History) : Prop where
  system : h.system.Tracks h.engines (keysOf h.stored) (keysOf h.seen)
  stored : ∀ x ∈ h.stored, x.inst.Owns x.key ∧ (x.key, x.blob) ∈ h.system.server.written
  seen : ∀ x ∈ h.seen, x ∈ h.stored
  answered : ∀ r job log, h.answered.get? r = some (job, log) → ∀ x ∈ log, x ∈ h.stored
  hits : ∀ r c, h.system.server.hits.get? r = some (some c) →
    ∃ job log, h.answered.get? r = some (job, log) ∧ c = (leading (keysOf log) job.keys, 0)

theorem tracks_new (chunkSize capacity : ℕ) (pool : ℕ → UInt8) (adapters : ℕ) :
    (new chunkSize capacity pool adapters).Tracks where
  system := System.tracks_new _ _ _ _
  stored x hx := by cases hx
  seen x hx := by cases hx
  answered r job log hr := by cases hr
  hits r c hr := by cases hr

/-- A STORE that ends has an engine, which owns its keys, and its blobs were written. -/
theorem Tracks.stores (ht : h.Tracks) (l : Label) :
    keysOf (h.stores l) = (h.system.finishes l).map StoreItem.key ∧
      ∀ x ∈ h.stores l, x.inst.Owns x.key ∧ (x.key, x.blob) ∈ h.system.server.written := by
  cases l with
  | handler t =>
    rcases hg : h.system.handlers.get? t with _ | ⟨m, hd⟩
    · have hnone : h.system.finishes (.handler t) = [] := by rw [System.finishes, hg]; rfl
      rw [History.stores, hnone]
      cases h.engines.get? t <;> exact ⟨rfl, nofun⟩
    · have hfinishes : h.system.finishes (.handler t) = hd.finishes := by
        rw [System.finishes, hg]
        rfl
      have htracks := ht.system.handlers t m hd hg
      rw [History.stores, hfinishes]
      rcases hd with _ | _ | _ | _ | ⟨filled, _ | ⟨item, todo⟩⟩ | _
      case storeCopy.nil =>
        obtain ⟨⟨inst, hinst, howns⟩, hwritten, -⟩ := htracks
        rw [hinst, Option.elim_some]
        refine ⟨by simp [keysOf, Handler.finishes], fun x hx => ?_⟩
        obtain ⟨item, hi, rfl⟩ := List.mem_map.mp hx
        refine ⟨howns _ (List.mem_map_of_mem ?_), hwritten item hi⟩
        rwa [List.append_nil]
      all_goals cases h.engines.get? t <;> exact ⟨rfl, nofun⟩
  | _ => exact ⟨rfl, nofun⟩

/-- The step lemma. -/
theorem Tracks.step {l : Label} (ht : h.Tracks) (hinv : h.system.Inv blake3 lost)
    (hok : h.system.Undisturbed blake3 l) (hs : h.step blake3 l = some h') : h'.Tracks := by
  obtain ⟨s', hs', rfl⟩ := Option.map_eq_some_iff.mp hs
  obtain ⟨hkeys, hstores⟩ := ht.stores l
  have hwritten := System.written_mono hs'
  refine ⟨?_, fun x hx => ?_, fun x hx => ?_, fun r job log hr x hx => ?_, fun r c hr => ?_⟩
  · have hsys := ht.system.step hinv hok hs'
    rw [← hkeys] at hsys
    simp only [keysOf, List.map_append]
    split_ifs at hsys ⊢ <;> exact hsys
  · rcases List.mem_append.mp hx with hx | hx
    · exact ⟨(ht.stored x hx).1, hwritten _ (ht.stored x hx).2⟩
    · exact ⟨(hstores x hx).1, hwritten _ (hstores x hx).2⟩
  · refine List.mem_append_left _ ?_
    dsimp only at hx
    split_ifs at hx
    · exact hx
    · exact ht.seen x hx
  · refine List.mem_append_left _ ?_
    dsimp only at hr
    rcases ha : h.system.answers l with _ | job'
    · rw [ha] at hr
      exact ht.answered r job log hr x hx
    · rw [ha] at hr
      rcases OrderedDict.eq_or_get?_of_set hr with ⟨-, he⟩ | hr
      · cases he
        exact ht.seen x hx
      · exact ht.answered r job log hr x hx
  · dsimp only at hr ⊢
    rcases System.hits_of_step hs' with ⟨hnone, hlost⟩ | ⟨job, l1Keys, loadedKeys, ha, hw, hhits⟩
    · rw [hnone]
      exact ht.hits r c (hlost r c hr)
    · rw [ha, Option.elim_some]
      rw [hhits] at hr
      rcases eq_or_ne job.requestId r with rfl | hne
      · have hworker := ht.system.worker
        rw [hw] at hworker
        rw [OrderedDict.get?_set_self] at hr ⊢
        cases hr
        refine ⟨job, h.seen, rfl, ?_⟩
        rw [hworker.1, hworker.2, List.length_nil]
      · rw [OrderedDict.get?_set_ne _ _ hne] at hr ⊢
        exact ht.hits r c hr

theorem Reachable.tracks (hr : h.Reachable blake3) :
    (∃ lost, h.system.Inv blake3 lost) ∧ h.Tracks := by
  obtain ⟨chunkSize, capacity, pool, adapters, ls, hrun⟩ := hr
  refine hrun.invariant (fun h => (∃ lost, h.system.Inv blake3 lost) ∧ h.Tracks)
    ⟨⟨0, System.inv_new _ _ _ _⟩, tracks_new _ _ _ _⟩ ?_
  rintro h l h' ⟨⟨lost, hinv⟩, ht⟩ hok hs
  refine ⟨?_, ht.step hinv hok hs⟩
  obtain ⟨s', hs', rfl⟩ := Option.map_eq_some_iff.mp hs
  exact ⟨_, (System.inv_step hinv hok.1 hs').1⟩

/-! ## What an answer depends on -/

/-- The chunks of a log that were stored by instances of this model with one of these ranks. -/
def chunksOf (log : List Stored) (model : String) (ranks : List ℕ) : List (ChunkKey × Bytes) :=
  (log.filter fun x => x.inst.model = model ∧ x.inst.rank ∈ ranks).map fun x => (x.key, x.blob)

/-- Request `r`, a LOOKUP of `keys`, was told the hits `c`; `log` had been stored when L1 was
searched for it. -/
def Told (h : History) (r : String) (keys : List ChunkKey) (log : List Stored) (c : ℕ × ℕ) : Prop :=
  h.system.server.hits.get? r = some (some c) ∧
    ∃ job, h.answered.get? r = some (job, log) ∧ job.keys = keys

/-- Thread `t` is about to send the chunks of `keys` for a RETRIEVE of the engine `inst`. -/
def Sending (h : History) (t : ℕ) (inst : EngineInstance) (keys : List ChunkKey) : Prop :=
  h.engines.get? t = some inst ∧
    ∃ m r objs, h.system.handlers.get? t = some (m, .retrieveSend r keys objs)

theorem mem_chunksOf {log : List Stored} {model : String} {ranks : List ℕ}
    {q : ChunkKey × Bytes} : q ∈ chunksOf log model ranks ↔
      ∃ x ∈ log, x.inst.model = model ∧ x.inst.rank ∈ ranks ∧ (x.key, x.blob) = q := by
  simp [chunksOf, and_assoc]

/-- A key of this model and one of these ranks is in the log when it is among their chunks. -/
theorem mem_keysOf_iff {log : List Stored} (howns : ∀ x ∈ log, x.inst.Owns x.key) {k : ChunkKey}
    {ranks : List ℕ} (hrank : k.rank ∈ ranks) :
    k ∈ keysOf log ↔ k ∈ (chunksOf log k.model ranks).map Prod.fst := by
  simp only [keysOf, List.mem_map, mem_chunksOf]
  constructor
  · rintro ⟨x, hx, rfl⟩
    obtain ⟨hmodel, hrank'⟩ := howns x hx
    exact ⟨_, ⟨x, hx, hmodel.symm, hrank' ▸ hrank, rfl⟩, rfl⟩
  · rintro ⟨q, ⟨x, hx, -, -, rfl⟩, rfl⟩
    exact ⟨x, hx, rfl⟩

theorem leading_congr {known known' : List ChunkKey} : ∀ {keys : List ChunkKey},
    (∀ k ∈ keys, k ∈ known ↔ k ∈ known') → leading known keys = leading known' keys
  | [], _ => rfl
  | k :: keys, h => by
    have ih := leading_congr fun k' hk' => h k' (List.mem_cons_of_mem k hk')
    have hk := h k List.mem_cons_self
    rw [leading, leading] at ih ⊢
    by_cases hmem : k ∈ known
    · simp [hmem, hk.mp hmem, ih]
    · simp [hmem, mt hk.mpr hmem]

/-- The hits told to a LOOKUP. -/
theorem Tracks.told (ht : h.Tracks) {r : String} {keys : List ChunkKey} {log : List Stored}
    {c : ℕ × ℕ} (htold : h.Told r keys log c) :
    c = (leading (keysOf log) keys, 0) ∧ ∀ x ∈ log, x.inst.Owns x.key := by
  obtain ⟨hhits, job, hjob, rfl⟩ := htold
  obtain ⟨job', log', hjob', rfl⟩ := ht.hits r c hhits
  obtain ⟨rfl, rfl⟩ := Prod.mk.inj (Option.some.inj (hjob'.symm.trans hjob))
  exact ⟨rfl, fun x hx => (ht.stored x (ht.answered r _ _ hjob x hx)).1⟩

/-- The chunks sent for a RETRIEVE : one for each key, and that of a stored key is what was
stored. -/
theorem Tracks.sending (ht : h.Tracks) (hinv : h.system.Inv blake3 lost) {t : ℕ}
    {inst : EngineInstance} {keys : List ChunkKey} (hsend : h.Sending t inst keys) :
    (h.system.sends (.handler t)).map Prod.fst = keys ∧
      ∀ q ∈ h.system.sends (.handler t), ∀ x ∈ h.stored, x.key = q.1 → x.blob = q.2 := by
  obtain ⟨-, m, r, objs, hg⟩ := hsend
  obtain ⟨-, hlen, hviews⟩ := ht.system.handlers t m _ hg
  have hsends : h.system.sends (.handler t) =
      (keys.zip objs).map fun v => (v.1, h.system.server.l1.bytes v.2) := by
    simp only [System.sends, hg, Option.elim_some, Handler.views]
  rw [hsends, List.map_map]
  refine ⟨List.map_fst_zip hlen.le, fun q hq x hx hkey => ?_⟩
  obtain ⟨v, hv, rfl⟩ := List.mem_map.mp hq
  obtain ⟨e, he, hobj⟩ := hviews v hv
  obtain ⟨e', he', hr⟩ := (ht.system.readable x.key).mpr (List.mem_map_of_mem hx)
  obtain rfl : e = e' := by
    rw [hkey, he] at he'
    exact Option.some.inj he'
  have hdata := hinv.ledger.data x.key e he' hr
  rw [hobj] at hdata
  exact ht.system.once x.key _ _ (ht.stored x hx).2 hdata

variable {h₁ h₂ : History}

/-- Run a server with chunks of one token, a pool of eight bytes and one L2 adapter. -/
def sample (ls : List Label) : Option History :=
  replay (step System.sampleDigest)
    (fun h l => decide (h.system.Undisturbed System.sampleDigest l)) (new 1 8 (fun _ => 0) 1) ls

theorem reachable_of_sample {h : History} {ls : List Label} (hs : sample ls = some h) :
    h.Reachable System.sampleDigest :=
  ⟨1, 8, _, 1, ls, (run_of_replay hs).mono fun _ _ hok => of_decide_eq_true hok⟩

/-- Thread `t` handles the STORE of `blob` for the prompt `[1]` by an engine of `model` that
registers before it. -/
def sampleStoreBy (t instanceId : ℕ) (model : String) (rank worldSize : ℕ) (blob : Bytes) :
    List Label :=
  [.recv t (.registerKvCache ⟨instanceId, model, rank, worldSize, 1, 2⟩), .handler t,
    .recv (t + 1) (.store ⟨"a", instanceId, System.sampleOp 1, [blob]⟩), .handler (t + 1),
    .handler (t + 1), .handler (t + 1), .handler (t + 1)]

/-- Request `b` looks up the prompt `[1]` for `m` with world size 1. -/
def sampleLookUp : List Label :=
  [.recv 2 (.lookup ⟨"b", [1], "m", 1⟩), .handler 2, .handler 2, .handler 2]

/-- `m` with world size 1 stores and looks up the prompt, and its RETRIEVE has read the chunk. -/
def sampleServed : List Label :=
  sampleStoreBy 0 7 "m" 0 1 [5, 6] ++ sampleLookUp ++ List.replicate 7 .worker ++
    [.recv 9 (.retrieve ⟨"b", 7, System.sampleOp 1, []⟩), .handler 9, .handler 9]

/-- Another model and another rank of `m` store chunks of their own for the same prompt. -/
def sampleOthers : List Label :=
  sampleStoreBy 3 5 "n" 0 1 [7, 8] ++ sampleStoreBy 5 6 "m" 1 2 [9, 9]

/-- The chunk of the prompt that an engine has stored. -/
def sampleChunk (inst : EngineInstance) (blob : Bytes) : Stored :=
  ⟨inst, ⟨(System.sampleKey 1).chunkHash, inst.model, inst.rank⟩, blob⟩

/-- Rank 0 of `m` with world size 1. -/
def sampleEngine : EngineInstance := ⟨0, "m", 1, 1, 2⟩

/-- `log` was stored, and `b` was told one hit from it; its RETRIEVE has read the chunk, which lies
at `offset`. -/
def SampleAnswer (h : History) (log : List Stored) (offset : ℕ) : Prop :=
  h.stored = log ∧ h.system.server.hits.get? "b" = some (some (1, 0)) ∧
    h.answered.get? "b" = some (⟨"b", [System.sampleKey 1], some 2⟩, log) ∧
    h.engines.get? 9 = some sampleEngine ∧
    h.system.handlers.get? 9 = some (.retrieve ⟨"b", 7, System.sampleOp 1, []⟩,
      .retrieveSend "b" [System.sampleKey 1] [⟨offset, 2⟩])

instance (h : History) (log : List Stored) (offset : ℕ) :
    Decidable (h.SampleAnswer log offset) := by
  unfold SampleAnswer
  infer_instance

end History

end MiniLlmcache
