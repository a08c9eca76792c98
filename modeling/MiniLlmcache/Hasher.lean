import MiniLlmcache.Protocol

/-!
# Prefix-chained chunk hashes

`utils/hasher.py`. BLAKE3 is a parameter, a function from byte strings to byte
strings. `chunkHashes` walks the whole chunks of a token list and hashes each one
after the hash of the chunk before it.

`chunkHashes_take` : the hashes of a prefix are a prefix of the hashes, wherever the
prefix is cut. This is why a STORE or RETRIEVE that carries only the tokens up to its
end addresses the chunks a LOOKUP of the whole prompt asked for.
-/

namespace MiniLlmcache

variable (blake3 : Bytes → Bytes)

/-- `struct.pack(">I", t)` of a token below `2^32` : four bytes, the most significant
first. -/
def packToken (t : ℕ) : Bytes :=
  [UInt8.ofNat (t / 2 ^ 24), UInt8.ofNat (t / 2 ^ 16), UInt8.ofNat (t / 2 ^ 8), UInt8.ofNat t]

/-- Hash one chunk given the hash of the preceding prefix. -/
def hashOne (prefixHash : Bytes) (tokens : List ℕ) : Bytes :=
  blake3 (prefixHash ++ tokens.flatMap packToken)

/-- Hash of the empty prefix : the chain starts here. -/
def noneHash : Bytes := hashOne blake3 (List.replicate 8 0) [0]

/-- The loop of `chunk_hashes` over `n` whole chunks. -/
def chunkHashesLoop (chunkSize : ℕ) : ℕ → Bytes → List ℕ → List Bytes
  | 0, _, _ => []
  | n + 1, prefixHash, tokens =>
    let h := hashOne blake3 prefixHash (tokens.take chunkSize)
    h :: chunkHashesLoop chunkSize n h (tokens.drop chunkSize)

/-- The prefix-chained hash of every whole chunk; a trailing partial chunk is ignored. -/
def chunkHashes (tokenIds : List ℕ) (chunkSize : ℕ) : List Bytes :=
  chunkHashesLoop blake3 chunkSize (tokenIds.length / chunkSize) (noneHash blake3) tokenIds

variable {blake3}

@[simp] theorem length_chunkHashesLoop (c n : ℕ) (h : Bytes) (tokens : List ℕ) :
    (chunkHashesLoop blake3 c n h tokens).length = n := by
  induction n generalizing h tokens with
  | zero => rfl
  | succ n ih => simp [chunkHashesLoop, ih]

theorem length_chunkHashes (tokens : List ℕ) (c : ℕ) :
    (chunkHashes blake3 tokens c).length = tokens.length / c :=
  length_chunkHashesLoop _ _ _ _

/-- The first `m` turns of the loop read only the first `m` chunks. -/
theorem chunkHashesLoop_take (c : ℕ) :
    ∀ (m n : ℕ) (h : Bytes) (tokens tokens' : List ℕ), m ≤ n →
      tokens.take (m * c) = tokens'.take (m * c) →
      chunkHashesLoop blake3 c m h tokens = (chunkHashesLoop blake3 c n h tokens').take m
  | 0, _, _, _, _, _, _ => rfl
  | m + 1, 0, _, _, _, hle, _ => by omega
  | m + 1, n + 1, h, tokens, tokens', hle, heq => by
    have hc : tokens.take c = tokens'.take c := by
      have := congrArg (List.take c) heq
      rwa [List.take_take, List.take_take, Nat.min_eq_left (by rw [Nat.succ_mul]; omega)] at this
    have hd : (tokens.drop c).take (m * c) = (tokens'.drop c).take (m * c) := by
      have := congrArg (List.drop c) heq
      rwa [List.drop_take, List.drop_take, Nat.succ_mul, Nat.add_sub_cancel] at this
    simp only [chunkHashesLoop, hc, List.take_succ_cons]
    rw [chunkHashesLoop_take c m n _ _ _ (by omega) hd]

/-- Token lists that agree on `m` chunks have the same first `m` hashes. -/
theorem chunkHashes_take_eq {c m : ℕ} {tokens tokens' : List ℕ} (hm : m ≤ tokens.length / c)
    (hm' : m ≤ tokens'.length / c) (heq : tokens.take (m * c) = tokens'.take (m * c)) :
    (chunkHashes blake3 tokens c).take m = (chunkHashes blake3 tokens' c).take m := by
  rw [chunkHashes, chunkHashes, ← chunkHashesLoop_take c m _ _ tokens tokens hm rfl,
    chunkHashesLoop_take c m _ _ tokens tokens' hm' heq]

/-- The hashes of a prefix are a prefix of the hashes. -/
theorem chunkHashes_take {c n : ℕ} {tokens : List ℕ} (hn : n ≤ tokens.length) :
    chunkHashes blake3 (tokens.take n) c = (chunkHashes blake3 tokens c).take (n / c) := by
  have hlen : (chunkHashes blake3 (tokens.take n) c).length = n / c := by
    simp [length_chunkHashes, hn]
  have hle : n / c ≤ (tokens.take n).length / c := by simp [hn]
  have heq : (tokens.take n).take (n / c * c) = tokens.take (n / c * c) := by
    rw [List.take_take, Nat.min_eq_left (Nat.div_mul_le_self n c)]
  rw [← chunkHashes_take_eq hle (Nat.div_le_div_right hn) heq]
  exact (List.take_of_length_le hlen.le).symm

end MiniLlmcache
