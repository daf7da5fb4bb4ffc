import Mathlib.Logic.Function.Iterate
import ModelGraph.Digest.Input

namespace ModelGraph
namespace Sha256

/-- The eight words carried from block to block, as numbers. -/
structure Numbers where
  a : Nat
  b : Nat
  c : Nat
  d : Nat
  e : Nat
  f : Nat
  g : Nat
  h : Nat

def Chain.numbers (x : Chain) : Numbers :=
  ⟨x.a.toNat, x.b.toNat, x.c.toNat, x.d.toNat, x.e.toNat, x.f.toNat, x.g.toNat, x.h.toNat⟩

namespace Numbers

def rotate (x n : Nat) : Nat := x >>> n ||| x <<< (32 - n) % 4294967296

def add : Numbers → Numbers → Numbers
  | ⟨a, b, c, d, e, f, g, h⟩, ⟨a', b', c', d', e', f', g', h'⟩ =>
    ⟨(a + a') % 4294967296, (b + b') % 4294967296, (c + c') % 4294967296, (d + d') % 4294967296,
      (e + e') % 4294967296, (f + f') % 4294967296, (g + g') % 4294967296, (h + h') % 4294967296⟩

def round : Numbers → Nat → Nat → Numbers
  | ⟨a, b, c, d, e, f, g, h⟩, k, w =>
    let s1 := rotate e 6 ^^^ rotate e 11 ^^^ rotate e 25
    let choice := (e &&& f) ^^^ ((e ^^^ 4294967295) &&& g)
    let t1 := h + s1 + choice + k + w
    let s0 := rotate a 2 ^^^ rotate a 13 ^^^ rotate a 22
    let majority := (a &&& b) ^^^ (a &&& c) ^^^ (b &&& c)
    ⟨(t1 + s0 + majority) % 4294967296, a, b, c, (d + t1) % 4294967296, e, f, g⟩

def rounds : Numbers → List Nat → List Nat → Numbers
  | x, k :: ks, w :: ws => rounds (round x k w) ks ws
  | x, _, _ => x

end Numbers

theorem numbers_add (x y : Chain) : (x.add y).numbers = x.numbers.add y.numbers := by
  simp [Chain.numbers, Chain.add, Numbers.add]

theorem numbers_round (x : Chain) (k w : UInt32) :
    (round x k w).numbers = x.numbers.round k.toNat w.toNat := by
  simp [Chain.numbers, round, Numbers.round, rotate, Numbers.rotate]

theorem numbers_foldl_round (pairs : List (UInt32 × UInt32)) (x : Chain) :
    (pairs.foldl (fun y p => round y p.1 p.2) x).numbers =
      x.numbers.rounds (pairs.map fun p => p.1.toNat) (pairs.map fun p => p.2.toNat) := by
  induction pairs generalizing x with
  | nil => rfl
  | cons p pairs ih => rw [List.foldl_cons, ih, numbers_round]; rfl

def slide : (n : Nat) → List Nat → List Nat
  | n + 1, w0 :: w1 :: w2 :: w3 :: w4 :: w5 :: w6 :: w7 :: w8 :: w9 :: w10 :: w11 :: w12 :: w13 ::
      w14 :: w15 :: _ =>
    let s0 := Numbers.rotate w1 7 ^^^ Numbers.rotate w1 18 ^^^ w1 >>> 3
    let s1 := Numbers.rotate w14 17 ^^^ Numbers.rotate w14 19 ^^^ w14 >>> 10
    w0 :: slide n [w1, w2, w3, w4, w5, w6, w7, w8, w9, w10, w11, w12, w13, w14, w15,
      (w0 + s0 + w9 + s1) % 4294967296]
  | _, window => window

theorem toList_extend {w : Array UInt32} {before : List UInt32} {w0 w1 w2 w3 w4 w5 w6 w7 w8 w9 w10
    w11 w12 w13 w14 w15 : UInt32} (hw : w.toList = before ++ [w0, w1, w2, w3, w4, w5, w6, w7, w8,
      w9, w10, w11, w12, w13, w14, w15]) :
    (extend w).toList = w.toList ++ [w0 + (rotate w1 7 ^^^ rotate w1 18 ^^^ (w1 >>> 3)) + w9 +
      (rotate w14 17 ^^^ rotate w14 19 ^^^ (w14 >>> 10))] := by
  obtain ⟨w⟩ := w
  subst hw
  simp [extend]

theorem toList_extended (n : Nat) {w : Array UInt32} {before : List UInt32} {w0 w1 w2 w3 w4 w5 w6 w7
    w8 w9 w10 w11 w12 w13 w14 w15 : UInt32} (hw : w.toList = before ++ [w0, w1, w2, w3, w4, w5, w6,
      w7, w8, w9, w10, w11, w12, w13, w14, w15]) :
    (extend^[n] w).toList.map UInt32.toNat = before.map UInt32.toNat ++
      slide n ([w0, w1, w2, w3, w4, w5, w6, w7, w8, w9, w10, w11, w12, w13, w14, w15].map
        UInt32.toNat) := by
  induction n generalizing w before w0 w1 w2 w3 w4 w5 w6 w7 w8 w9 w10 w11 w12 w13 w14 w15 with
  | zero => rw [Function.iterate_zero, id_eq, hw, List.map_append]; rfl
  | succ n ih =>
    have hnext : (extend w).toList = before ++ [w0] ++ [w1, w2, w3, w4, w5, w6, w7, w8, w9, w10, w11,
        w12, w13, w14, w15, w0 + (rotate w1 7 ^^^ rotate w1 18 ^^^ (w1 >>> 3)) + w9 +
          (rotate w14 17 ^^^ rotate w14 19 ^^^ (w14 >>> 10))] := by
      rw [toList_extend hw, hw, List.append_assoc, List.append_assoc]
      rfl
    rw [Function.iterate_succ_apply, ih hnext]
    simp [slide, rotate, Numbers.rotate]

/-- Groups of four bytes as numbers, the first byte highest. -/
def numberWords : List UInt8 → List Nat
  | a :: b :: c :: d :: rest =>
    (a.toNat <<< 24 % 4294967296 ||| b.toNat <<< 16 % 4294967296 ||| c.toNat <<< 8 % 4294967296 |||
      d.toNat) :: numberWords rest
  | _ => []

theorem map_words (bytes : List UInt8) : (words bytes).map UInt32.toNat = numberWords bytes := by
  fun_induction words bytes with
  | case1 a b c d rest ih => simp [numberWords, ih]
  | case2 bytes h =>
    rw [numberWords]
    · rfl
    · exact h

theorem length_words (bytes : List UInt8) : (words bytes).length = bytes.length / 4 := by
  fun_induction words bytes with
  | case1 a b c d rest ih =>
    simp only [List.length_cons, ih]
    omega
  | case2 bytes h =>
    match bytes, h with
    | [], _ | [_], _ | [_, _], _ | [_, _, _], _ => simp
    | a :: b :: c :: d :: rest, h => exact absurd rfl (h a b c d rest)

theorem map_schedule {block : List UInt8} (hb : block.length = 64) :
    (schedule block).toList.map UInt32.toNat = slide 48 (numberWords block) := by
  have hlength : (words block).length = 16 := by rw [length_words, hb]
  rw [schedule, List.foldl_const, List.length_range, ← map_words]
  match hw : words block, hlength with
  | [w0, w1, w2, w3, w4, w5, w6, w7, w8, w9, w10, w11, w12, w13, w14, w15], _ =>
    exact toList_extended 48 (List.nil_append _).symm

theorem size_extended (n : Nat) (w : Array UInt32) : (extend^[n] w).size = w.size + n := by
  induction n generalizing w with
  | zero => rfl
  | succ n ih =>
    rw [Function.iterate_succ_apply, ih, extend, Array.size_push]
    omega

theorem size_schedule {block : List UInt8} (hb : block.length = 64) : (schedule block).size = 64 := by
  rw [schedule, List.foldl_const, List.length_range, size_extended, List.size_toArray, length_words,
    hb]

theorem map_getD_range {w : Array UInt32} {n : Nat} (hw : w.size = n) :
    (List.range n).map (fun t => (w.getD t 0).toNat) = w.toList.map UInt32.toNat := by
  subst hw
  refine List.ext_getElem (by simp) fun i hi hi' => ?_
  simp at hi
  simp [hi]

def Numbers.compress (x : Numbers) (block : List UInt8) : Numbers :=
  x.add (x.rounds (roundConstants.toList.map UInt32.toNat) (slide 48 (numberWords block)))

theorem numbers_compress (x : Chain) {block : List UInt8} (hb : block.length = 64) :
    (compress x block).numbers = x.numbers.compress block := by
  have hpairs : (List.range 64).foldl
      (fun y t => round y (roundConstants.getD t 0) ((schedule block).getD t 0)) x =
        ((List.range 64).map fun t => (roundConstants.getD t 0, (schedule block).getD t 0)).foldl
          (fun y p => round y p.1 p.2) x := by
    rw [List.foldl_map]
  have hconstants : (List.range 64).map (fun t => (roundConstants.getD t 0).toNat) =
    roundConstants.toList.map UInt32.toNat := map_getD_range rfl
  have hwords : (List.range 64).map (fun t => ((schedule block).getD t 0).toNat) =
    slide 48 (numberWords block) := (map_getD_range (size_schedule hb)).trans (map_schedule hb)
  rw [compress, numbers_add, hpairs, numbers_foldl_round, List.map_map, List.map_map,
    Numbers.compress]
  simp only [Function.comp_def, hconstants, hwords]

def Numbers.absorb : (n : Nat) → Numbers → List UInt8 → Numbers
  | 0, x, _ => x
  | n + 1, x, s => absorb n (x.compress (s.take 64)) (s.drop 64)

theorem numbers_absorb (x : Chain) (s : List UInt8) :
    (absorb x s).numbers = x.numbers.absorb (s.length / 64) s := by
  fun_induction absorb x s with
  | case1 x s h => rw [Nat.div_eq_of_lt h, Numbers.absorb]
  | case2 x s h ih =>
    have hblock : (s.take 64).length = 64 := by
      rw [List.length_take]
      omega
    have hcount : s.length / 64 = (s.drop 64).length / 64 + 1 := by
      rw [List.length_drop]
      omega
    rw [ih, numbers_compress x hblock, hcount, Numbers.absorb]

/-- The bytes of eight numbers, of each the highest first. -/
def Numbers.digest (x : Numbers) : Digest :=
  let words := [x.a, x.b, x.c, x.d, x.e, x.f, x.g, x.h]
  ⟨Vector.ofFn fun i : Fin 32 => UInt8.ofNat (words.getD (i.val / 4) 0 >>> (24 - 8 * (i.val % 4)))⟩

def hashNumbers (message : List UInt8) : Digest :=
  let s := pad message
  (Chain.start.numbers.absorb (s.length / 64) s).digest

theorem hash_eq_hashNumbers (message : List UInt8) : hash message = hashNumbers message := by
  rw [hash, hashNumbers, ← numbers_absorb]
  generalize absorb .start (pad message) = x
  have hwords : [x.numbers.a, x.numbers.b, x.numbers.c, x.numbers.d, x.numbers.e, x.numbers.f,
    x.numbers.g, x.numbers.h] = x.words.toList.map UInt32.toNat := rfl
  have hword : ∀ i : Fin 32, (x.words.toList.map UInt32.toNat).getD (i.val / 4) 0 =
      x.words[i.val / 4].toNat := by
    intro i
    have hi : i.val / 4 < 8 := by omega
    simp [hi]
  have hshift : ∀ i < 4, (24 - 8 * UInt32.ofNat i).toNat % 32 = 24 - 8 * i := by decide
  have hbyte : ∀ i : Fin 32, (x.words[i.val / 4] >>> (24 - 8 * UInt32.ofNat (i.val % 4))).toUInt8 =
      UInt8.ofNat (x.words[i.val / 4].toNat >>> (24 - 8 * (i.val % 4))) := by
    intro i
    rw [← UInt8.ofNat_uInt32ToNat, UInt32.toNat_shiftRight, hshift _ (Nat.mod_lt _ (by decide))]
  simp only [Numbers.digest, hwords, hword, hbyte]

end Sha256

theorem HashInput.digest_eq_hashNumbers : HashInput.digest = Sha256.hashNumbers :=
  funext Sha256.hash_eq_hashNumbers

end ModelGraph
