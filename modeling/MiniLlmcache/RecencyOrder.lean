import MiniLlmcache.LastUse
import MiniLlmcache.Recency

/-!
# The order of the LRU policy

What the policy's ordered dictionary stands for : every key that was notified since its last
removal, stamped with its latest notification. A later batch is later, and inside one batch a key
listed earlier is. `recency_order` : after any history of events the dictionary lists exactly
these keys, the oldest stamp first, and the victims are the first eligible ones.

The dictionary is updated key by key, the batch reversed; `SortedByStamp.use` is one such update.
-/

namespace MiniLlmcache

/-- When a key was notified : in which batch, and where it was listed. -/
structure Notified where
  batch : ℕ
  position : ℕ
deriving DecidableEq

instance : LT Notified :=
  ⟨fun a b => a.batch < b.batch ∨ a.batch = b.batch ∧ b.position < a.position⟩

namespace LRUPolicy

/-- A batch of one event. -/
def notify (p : LRUPolicy) : Event × List ChunkKey → LRUPolicy
  | (.onCreated, keys) => p.onCreated keys
  | (.onWriteFinished, _) => p
  | (.onTouched, keys) => p.onTouched keys
  | (.onRemoved, keys) => p.onRemoved keys

/-- It is what the manager's `notify` does to the policy. -/
theorem lru_notify (ls : Listeners) (keys : List ChunkKey) (event : Event) :
    (ls.notify keys event).lru = ls.lru.notify (event, keys) := by
  cases event <;> rfl

def after (history : List (Event × List ChunkKey)) : LRUPolicy := history.foldl notify .new

/-! ## Latest notifications -/

/-- The latest notification of `k`, after batch `i`. -/
def renew (k : ChunkKey) (last : Option Notified) : (Event × List ChunkKey) × ℕ → Option Notified
  | ((.onCreated, keys), i) | ((.onTouched, keys), i) =>
    if k ∈ keys then some ⟨i, keys.idxOf k⟩ else last
  | ((.onWriteFinished, _), _) => last
  | ((.onRemoved, keys), _) => if k ∈ keys then none else last

/-- The latest notification of `k` since its last removal. -/
def latest (history : List (Event × List ChunkKey)) (k : ChunkKey) : Option Notified :=
  history.zipIdx.foldl (renew k) none

theorem latest_snoc (history : List (Event × List ChunkKey)) (n : Event × List ChunkKey)
    (k : ChunkKey) :
    latest (history ++ [n]) k = renew k (latest history k) (n, history.length) := by
  simp [latest, List.zipIdx_append]

theorem batch_of_latest {k : ChunkKey} {s : Notified} (history : List (Event × List ChunkKey))
    (hs : latest history k = some s) : s.batch < history.length := by
  induction history using List.reverseRecOn with
  | nil => simp [latest] at hs
  | append_singleton history n ih =>
    have hold : latest history k = some s → s.batch < (history ++ [n]).length := fun h => by
      have := ih h
      rw [List.length_append]
      omega
    rw [latest_snoc] at hs
    rcases n with ⟨_ | _ | _ | _, keys⟩ <;> simp only [renew] at hs
    · split_ifs at hs
      · obtain rfl := Option.some.inj hs
        simp
      · exact hold hs
    · exact hold hs
    · split_ifs at hs
      · obtain rfl := Option.some.inj hs
        simp
      · exact hold hs
    · split_ifs at hs
      exact hold hs

/-! ## One batch -/

variable {stamp : ChunkKey → Option Notified}

/-- The keys of a batch, from position `i` on, the last one first. -/
theorem sorted_foldr_setLast {n : ℕ} (hn : ∀ k, ∀ s ∈ stamp k, s.batch < n) :
    ∀ (keys : List ChunkKey) (i : ℕ) {d : OrderedDict ChunkKey Unit},
      SortedByStamp d.keys stamp →
      SortedByStamp (keys.foldr (fun key order => order.setLast key ()) d).keys
        fun k => if k ∈ keys then some ⟨n, i + keys.idxOf k⟩ else stamp k
  | [], _, _, h => by simpa using h
  | key :: keys, i, d, h => by
    have ih := sorted_foldr_setLast hn keys (i + 1) h
    have hkeys : ((key :: keys).foldr (fun key order => order.setLast key ()) d).keys =
        moveToEnd (keys.foldr (fun key order => order.setLast key ()) d).keys [key] := by
      rw [List.foldr_cons, OrderedDict.keys_setLast, moveToEnd]
      simp
    -- `key` is listed before the others of the batch, so it is later
    have huse := ih.use (a := key) (t := ⟨n, i⟩) fun b _ s hs => by
      split_ifs at hs
      · obtain rfl := Option.some.inj hs
        exact Or.inr ⟨rfl, by dsimp only; omega⟩
      · exact Or.inl (hn b s hs)
    have hstamp : (fun k => if k ∈ key :: keys then some (⟨n, i + (key :: keys).idxOf k⟩ : Notified)
        else stamp k) = Function.update (fun k => if k ∈ keys then
          some (⟨n, i + 1 + keys.idxOf k⟩ : Notified) else stamp k) key (some ⟨n, i⟩) := by
      funext k
      rw [Function.update_apply]
      by_cases hk : k = key
      · simp [hk]
      · have hidx : i + (key :: keys).idxOf k = i + 1 + keys.idxOf k := by
          rw [List.idxOf_cons_ne _ (Ne.symm hk)]
          omega
        simp [hk, hidx]
    rw [hkeys, hstamp]
    exact huse

theorem sorted_onCreated {n : ℕ} (hn : ∀ k, ∀ s ∈ stamp k, s.batch < n) {p : LRUPolicy}
    (h : SortedByStamp p.order.keys stamp) (keys : List ChunkKey) :
    SortedByStamp (p.onCreated keys).order.keys
      fun k => if k ∈ keys then some ⟨n, keys.idxOf k⟩ else stamp k := by
  have := sorted_foldr_setLast hn keys 0 h
  simp only [zero_add] at this
  rw [onCreated, List.foldl_reverse]
  exact this

theorem sorted_onRemoved : ∀ (keys : List ChunkKey) {p : LRUPolicy}
    {stamp : ChunkKey → Option Notified}, SortedByStamp p.order.keys stamp →
    SortedByStamp (p.onRemoved keys).order.keys fun k => if k ∈ keys then none else stamp k
  | [], _, _, h => by simpa [onRemoved] using h
  | key :: keys, p, stamp, h => by
    have hkeys : (p.order.erase key).keys = p.order.keys.filter (· ∉ [key]) := by
      rw [OrderedDict.keys_erase]
      simp
    have hone : SortedByStamp (p.order.erase key).keys (Function.update stamp key none) := by
      rw [hkeys]
      exact h.forget key
    have hstamp : (fun k => if k ∈ key :: keys then none else stamp k) =
        fun k => if k ∈ keys then none else Function.update stamp key none k := by
      funext k
      rw [Function.update_apply]
      by_cases hk : k = key <;> simp [hk]
    have hrest := sorted_onRemoved keys (p := ⟨p.order.erase key⟩) hone
    rw [hstamp]
    exact hrest

/-- The order after a history. -/
theorem sorted_after (history : List (Event × List ChunkKey)) :
    SortedByStamp (after history).order.keys (latest history) := by
  induction history using List.reverseRecOn with
  | nil => exact SortedByStamp.nil
  | append_singleton history n ih =>
    have hn : ∀ k, ∀ s ∈ latest history k, s.batch < history.length :=
      fun k s hs => batch_of_latest history hs
    have hstamp : latest (history ++ [n]) =
        fun k => renew k (latest history k) (n, history.length) :=
      funext fun k => latest_snoc history n k
    rw [hstamp, after, List.foldl_append]
    rcases n with ⟨_ | _ | _ | _, keys⟩
    · exact sorted_onCreated hn ih keys
    · exact ih
    · exact sorted_onCreated hn ih keys
    · exact sorted_onRemoved keys ih

/-! ## Victims -/

/-- `LRUPolicy` is true recency order : after every history of events the order lists each key
notified since its last removal once, by its latest notification, the oldest first; for every
target and every predicate the loop of `get_victims` takes the first eligible keys of that
order, as many as there are and are wanted, and an eligible key left out is more recent than
every victim. -/
theorem recency_order (history : List (Event × List ChunkKey)) :
    (after history).order.keys.Nodup ∧
    (∀ k, k ∈ (after history).order.keys ↔ (latest history k).isSome) ∧
    (after history).order.keys.Pairwise (fun a b =>
      ∀ s ∈ latest history a, ∀ t ∈ latest history b, s < t) ∧
    (∀ t eligible,
      victimsLoop t eligible (after history).order.keys [] =
        ((after history).order.keys.filter eligible).take
          (min t ((after history).order.keys.filter eligible).length) ∧
      ∀ v ∈ victimsLoop t eligible (after history).order.keys [],
        ∀ k ∈ (after history).order.keys, eligible k = true →
          k ∉ victimsLoop t eligible (after history).order.keys [] →
          ∀ s ∈ latest history v, ∀ u ∈ latest history k, s < u) ∧
    ∀ ratio eligible, (after history).getVictims ratio eligible =
      victimsLoop (max 1 ((after history).order.keys.length * ratio.1 / ratio.2)) eligible
        (after history).order.keys [] := by
  have h := sorted_after history
  refine ⟨h.nodup, h.mem, h.sorted, fun t eligible => ?_, fun _ _ => rfl⟩
  set order := (after history).order.keys
  have hloop : victimsLoop t eligible order [] = (order.filter eligible).take t := by
    rw [victimsLoop_eq]
    rfl
  refine ⟨?_, fun v hv k hk hel hnot => ?_⟩
  · rw [hloop, ← List.take_eq_take_min]
  · rw [hloop] at hv hnot
    have hsplit := h.sorted.sublist (List.filter_sublist (p := eligible))
    rw [← List.take_append_drop t (order.filter eligible), List.pairwise_append] at hsplit
    have hmem : k ∈ order.filter eligible := List.mem_filter.mpr ⟨hk, hel⟩
    rw [← List.take_append_drop t (order.filter eligible), List.mem_append] at hmem
    exact hsplit.2.2 v hv k (hmem.resolve_left hnot)

end LRUPolicy

end MiniLlmcache
