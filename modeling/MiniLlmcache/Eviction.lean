import MiniLlmcache.Protocol

/-!
# The LRU policy

`l1/eviction.py` : the policy keeps the resident keys in recency order, the coldest
first. A batch is inserted in reverse, so inside one batch the key listed first is the
most recent one. `getVictims` walks from the cold end and takes eligible keys until
the quota is full.
-/

namespace MiniLlmcache

/-- `WATERMARK = 0.8` and `EVICTION_RATIO = 0.2`, as fractions. -/
def watermark : ℕ × ℕ := (4, 5)
def evictionRatio : ℕ × ℕ := (1, 5)

/-- `LRUPolicy.order`, the least recently used key first. -/
structure LRUPolicy where
  order : OrderedDict ChunkKey Unit

namespace LRUPolicy

def new : LRUPolicy := ⟨.empty⟩

def onCreated (p : LRUPolicy) (keys : List ChunkKey) : LRUPolicy :=
  ⟨keys.reverse.foldl (fun order key => order.setLast key ()) p.order⟩

def onTouched (p : LRUPolicy) (keys : List ChunkKey) : LRUPolicy := p.onCreated keys

def onRemoved (p : LRUPolicy) (keys : List ChunkKey) : LRUPolicy :=
  ⟨keys.foldl (fun order key => order.erase key) p.order⟩

/-- The loop of `get_victims`, with `victims` taken so far. -/
def victimsLoop (target : ℕ) (eligible : ChunkKey → Bool) :
    List ChunkKey → List ChunkKey → List ChunkKey
  | [], victims => victims
  | key :: order, victims =>
    if victims.length ≥ target then victims
    else if eligible key then victimsLoop target eligible order (victims ++ [key])
    else victimsLoop target eligible order victims

/-- Up to `ratio` of the least recently used eligible keys, at least one. -/
def getVictims (p : LRUPolicy) (ratio : ℕ × ℕ) (eligible : ChunkKey → Bool) : List ChunkKey :=
  victimsLoop (max 1 (p.order.keys.length * ratio.1 / ratio.2)) eligible p.order.keys []

end LRUPolicy

end MiniLlmcache
