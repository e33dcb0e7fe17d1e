import CloudBurrow.Codec.Utf8

namespace CloudBurrow.Words
open Utf8

def bigEndian (x : UInt64) : Bytes :=
  [.ofNat (x.toNat / 2 ^ 56), .ofNat (x.toNat / 2 ^ 48), .ofNat (x.toNat / 2 ^ 40),
    .ofNat (x.toNat / 2 ^ 32), .ofNat (x.toNat / 2 ^ 24), .ofNat (x.toNat / 2 ^ 16),
    .ofNat (x.toNat / 2 ^ 8), .ofNat x.toNat]

def word (s : Bytes) : UInt64 :=
  let b := fun i => (s.getD i 0).toNat
  .ofNat (b 0 * 2 ^ 56 + b 1 * 2 ^ 48 + b 2 * 2 ^ 40 + b 3 * 2 ^ 32 + b 4 * 2 ^ 24 + b 5 * 2 ^ 16 +
    b 6 * 2 ^ 8 + b 7)

def words : Nat → Bytes → List UInt64
  | 0, _ => []
  | n + 1, s => word s :: words n (s.drop 8)

def bytes (ws : List UInt64) : Bytes := ws.flatMap bigEndian

@[simp] theorem length_bigEndian (x : UInt64) : (bigEndian x).length = 8 := rfl

@[simp] theorem length_words (n : Nat) (s : Bytes) : (words n s).length = n := by
  induction n generalizing s with
  | zero => rfl
  | succ n ih => rw [words, List.length_cons, ih]

@[simp] theorem length_bytes (ws : List UInt64) : (bytes ws).length = 8 * ws.length := by
  induction ws with
  | nil => rfl
  | cons w ws ih =>
    rw [bytes, List.flatMap_cons, List.length_append, ← bytes, ih, length_bigEndian, List.length_cons]
    omega

theorem word_bigEndian (x : UInt64) (t : Bytes) : word (bigEndian x ++ t) = x := by
  have hx := x.toNat_lt
  rw [← UInt64.toNat_inj]
  simp only [word, bigEndian, List.cons_append, List.getD_cons_zero, List.getD_cons_succ,
    UInt8.toNat_ofNat', UInt64.toNat_ofNat']
  omega

theorem bigEndian_word {s : Bytes} (h : s.length = 8) : bigEndian (word s) = s := by
  match s, h with
  | [a, b, c, d, e, f, g, i], _ =>
    have ha := a.toNat_lt
    have hb := b.toNat_lt
    have hc := c.toNat_lt
    have hd := d.toNat_lt
    have he := e.toNat_lt
    have hf := f.toNat_lt
    have hg := g.toNat_lt
    have hi := i.toNat_lt
    simp only [word, bigEndian, List.getD_cons_zero, List.getD_cons_succ, UInt64.toNat_ofNat',
      List.cons.injEq, ← UInt8.toNat_inj, UInt8.toNat_ofNat']
    refine ⟨?_, ?_, ?_, ?_, ?_, ?_, ?_, ?_, trivial⟩
    all_goals omega

theorem words_bytes (ws : List UInt64) : words ws.length (bytes ws) = ws := by
  induction ws with
  | nil => rfl
  | cons w ws ih =>
    rw [List.length_cons, words, bytes, List.flatMap_cons, ← bytes, word_bigEndian,
      List.drop_left' (length_bigEndian w), ih]

theorem word_append {s : Bytes} (h : s.length = 8) (t : Bytes) : word (s ++ t) = word s := by
  rw [← bigEndian_word h, word_bigEndian, bigEndian_word h]

theorem bytes_words_exact {n : Nat} {s : Bytes} (h : s.length = 8 * n) : bytes (words n s) = s := by
  induction n generalizing s with
  | zero => rw [List.eq_nil_of_length_eq_zero h, words, bytes, List.flatMap_nil]
  | succ n ih =>
    have htake : (s.take 8).length = 8 := by
      rw [List.length_take]
      omega
    have hdrop : (s.drop 8).length = 8 * n := by
      rw [List.length_drop]
      omega
    have hword : word s = word (s.take 8) := by
      conv_lhs => rw [← List.take_append_drop 8 s]
      exact word_append htake _
    rw [words, bytes, List.flatMap_cons, ← bytes, ih hdrop, hword, bigEndian_word htake,
      List.take_append_drop]

theorem getD_zeros (s : Bytes) (m i : Nat) : (s ++ List.replicate m 0).getD i 0 = s.getD i 0 := by
  by_cases hi : i < s.length
  · exact List.getD_append _ _ _ _ hi
  · rw [List.getD_append_right _ _ _ _ (not_lt.mp hi), List.getD_eq_default s 0 (not_lt.mp hi),
      List.getD_eq_getElem?_getD, List.getElem?_replicate]
    split_ifs <;> rfl

theorem words_zeros (n m : Nat) (s : Bytes) : words n (s ++ List.replicate m 0) = words n s := by
  induction n generalizing s m with
  | zero => rfl
  | succ n ih =>
    have hword : word (s ++ List.replicate m 0) = word s := by
      simp only [word, getD_zeros]
    rw [words, words, hword, List.drop_append, List.drop_replicate, ih]

theorem bytes_words {n : Nat} {s : Bytes} (h : s.length ≤ 8 * n) :
    bytes (words n s) = s ++ List.replicate (8 * n - s.length) 0 := by
  rw [← words_zeros n (8 * n - s.length) s, bytes_words_exact]
  rw [List.length_append, List.length_replicate]
  omega

end CloudBurrow.Words
