/-
  TddyCoder.Bytes.Wire — what byte formats are made of: unsigned integers as a fixed number
  of bytes, and a sequence cut into pieces of one length.
-/

import Mathlib.Algebra.Order.Ring.Nat

namespace TddyCoder.Bytes

open List

/-! ## Integers -/

def toLeBytes : Nat → Nat → List UInt8
  | 0, _ => []
  | width + 1, n => UInt8.ofNat n :: toLeBytes width (n / 256)

def fromLeBytes : List UInt8 → Nat
  | [] => 0
  | b :: bs => b.toNat + 256 * fromLeBytes bs

@[simp] theorem length_toLeBytes (width n : Nat) : (toLeBytes width n).length = width := by
  induction width generalizing n with
  | zero => rfl
  | succ width ih => simp [toLeBytes, ih]

theorem fromLeBytes_toLeBytes (width n : Nat) : fromLeBytes (toLeBytes width n) = n % 256 ^ width := by
  induction width generalizing n with
  | zero => simp [toLeBytes, fromLeBytes, Nat.mod_one]
  | succ width ih =>
    rw [toLeBytes, fromLeBytes, ih, Nat.pow_succ', Nat.mod_mul]
    simp

def toBeBytes (width n : Nat) : List UInt8 := (toLeBytes width n).reverse

def fromBeBytes (bs : List UInt8) : Nat := fromLeBytes bs.reverse

@[simp] theorem length_toBeBytes (width n : Nat) : (toBeBytes width n).length = width := by
  simp [toBeBytes]

theorem fromBeBytes_toBeBytes (width n : Nat) : fromBeBytes (toBeBytes width n) = n % 256 ^ width := by
  rw [fromBeBytes, toBeBytes, reverse_reverse, fromLeBytes_toLeBytes]

/-! ## Pieces -/

section

variable {α : Type} {n : Nat} {xs : List α}

def chunks (n : Nat) (xs : List α) : List (List α) :=
  (List.range ((xs.length + n - 1) / n)).map fun i => (xs.drop (i * n)).take n

theorem length_chunks (n : Nat) (xs : List α) : (chunks n xs).length = (xs.length + n - 1) / n := by
  simp [chunks]

theorem chunks_nil (hn : 0 < n) : chunks n ([] : List α) = [] := by
  simp [chunks, Nat.div_eq_of_lt (Nat.sub_lt hn Nat.one_pos)]

theorem chunks_of_ne_nil (hn : 0 < n) (hxs : xs ≠ []) :
    chunks n xs = xs.take n :: chunks n (xs.drop n) := by
  have hpos := length_pos_iff.mpr hxs
  have hcount : (xs.length + n - 1) / n = ((xs.drop n).length + n - 1) / n + 1 := by
    rw [← Nat.add_div_right _ hn, length_drop]
    by_cases hle : n ≤ xs.length
    · congr 1
      omega
    · rw [Nat.div_eq_of_lt_le (k := 1) (by omega) (by omega), Nat.div_eq_of_lt_le (k := 1) (by omega) (by omega)]
  rw [chunks, chunks, hcount, range_succ_eq_map, map_cons, map_map]
  simp [Function.comp_def, Nat.succ_mul, Nat.add_comm]

theorem chunks_append (hn : 0 < n) {ys : List α} (hxs : xs.length = n) (hne : ys ≠ []) (hys : ys.length ≤ n) :
    chunks n (xs ++ ys) = [xs, ys] := by
  rw [chunks_of_ne_nil hn (append_ne_nil_of_right_ne_nil xs hne), take_left' hxs, drop_left' hxs,
    chunks_of_ne_nil hn hne, take_of_length_le hys, drop_of_length_le hys, chunks_nil hn]

theorem flatten_take_pieces (n : Nat) (xs : List α) (count : Nat) :
    ((List.range count).map fun i => (xs.drop (i * n)).take n).flatten = xs.take (count * n) := by
  induction count with
  | zero => simp
  | succ count ih =>
    rw [range_succ, map_append, flatten_append, ih, Nat.succ_mul, take_add]
    simp

theorem flatten_chunks (hn : 0 < n) (xs : List α) : (chunks n xs).flatten = xs := by
  rw [chunks, flatten_take_pieces, take_of_length_le]
  have hlt := Nat.lt_div_mul_add hn (a := xs.length + n - 1)
  omega

theorem ne_nil_of_mem_chunks (hn : 0 < n) {piece : List α} (h : piece ∈ chunks n xs) : piece ≠ [] := by
  obtain ⟨i, hi, rfl⟩ := mem_map.mp h
  have hinside : i * n < xs.length := by
    have hle := (Nat.le_div_iff_mul_le hn).mp (Nat.succ_le_of_lt (mem_range.mp hi))
    rw [Nat.succ_mul] at hle
    omega
  rw [ne_eq, ← length_eq_zero_iff, length_take, length_drop]
  omega

theorem length_le_of_mem_chunks {piece : List α} (h : piece ∈ chunks n xs) : piece.length ≤ n := by
  obtain ⟨i, -, rfl⟩ := mem_map.mp h
  exact length_take_le _ _

end

end TddyCoder.Bytes
