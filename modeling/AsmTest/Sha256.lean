import AsmTest.Lib.Json
import AsmTest.Lib.Fips180

/-!
# The streaming SHA-256 of the `code` header

The state of the C code after any run of updates is the state of the whole message, and the padding
that `final` feeds through the same update is the padding of the standard.
-/

namespace AsmTest.Doc

open Lib Fips180

section Code

/-- `asmtrace_sha256_t` -/
structure Sha256 where
  h : Hash
  nbits : BitVec 64
  buf : Bytes
  nbuf : ℕ

def sha256Ror (x : BitVec 32) (n : ℕ) : BitVec 32 :=
  x >>> n ||| x <<< (32 - n)

/-- The initial words; the buffer holds what was there. -/
def sha256Init (buf : Bytes) : Sha256 where
  h := ⟨0x6a09e667, 0xbb67ae85, 0x3c6ef372, 0xa54ff53a, 0x510e527f, 0x9b05688c, 0x1f83d9ab,
    0x5be0cd19⟩
  nbits := 0
  buf := buf
  nbuf := 0

/-- The table `k` of `asmtrace_sha256_block` -/
def sha256K : List ℕ :=
  [0x428a2f98, 0x71374491, 0xb5c0fbcf, 0xe9b5dba5, 0x3956c25b, 0x59f111f1, 0x923f82a4, 0xab1c5ed5,
    0xd807aa98, 0x12835b01, 0x243185be, 0x550c7dc3, 0x72be5d74, 0x80deb1fe, 0x9bdc06a7, 0xc19bf174,
    0xe49b69c1, 0xefbe4786, 0x0fc19dc6, 0x240ca1cc, 0x2de92c6f, 0x4a7484aa, 0x5cb0a9dc, 0x76f988da,
    0x983e5152, 0xa831c66d, 0xb00327c8, 0xbf597fc7, 0xc6e00bf3, 0xd5a79147, 0x06ca6351, 0x14292967,
    0x27b70a85, 0x2e1b2138, 0x4d2c6dfc, 0x53380d13, 0x650a7354, 0x766a0abb, 0x81c2c92e, 0x92722c85,
    0xa2bfe8a1, 0xa81a664b, 0xc24b8b70, 0xc76c51a3, 0xd192e819, 0xd6990624, 0xf40e3585, 0x106aa070,
    0x19a4c116, 0x1e376c08, 0x2748774c, 0x34b0bcb5, 0x391c0cb3, 0x4ed8aa4a, 0x5b9cca4f, 0x682e6ff3,
    0x748f82ee, 0x78a5636f, 0x84c87814, 0x8cc70208, 0x90befffa, 0xa4506ceb, 0xbef9a3f7, 0xc67178f2]

/-- `(uint32_t)p[i]` -/
def byteAt (p : Bytes) (i : ℕ) : BitVec 32 :=
  (p.getD i 0).toBitVec.setWidth 32

def loadWord (p : Bytes) (i : ℕ) : BitVec 32 :=
  byteAt p (i * 4) <<< 24 ||| byteAt p (i * 4 + 1) <<< 16 ||| byteAt p (i * 4 + 2) <<< 8 |||
    byteAt p (i * 4 + 3)

/-- One turn of the second loop over `w` -/
def scheduleStep (w : List (BitVec 32)) (i : ℕ) : List (BitVec 32) :=
  let s0 := sha256Ror (w.getD (i - 15) 0) 7 ^^^ sha256Ror (w.getD (i - 15) 0) 18 ^^^
    w.getD (i - 15) 0 >>> 3
  let s1 := sha256Ror (w.getD (i - 2) 0) 17 ^^^ sha256Ror (w.getD (i - 2) 0) 19 ^^^
    w.getD (i - 2) 0 >>> 10
  w ++ [w.getD (i - 16) 0 + s0 + w.getD (i - 7) 0 + s1]

def scheduleWords (p : Bytes) : List (BitVec 32) :=
  (List.range' 16 48).foldl scheduleStep ((List.range 16).map (loadWord p))

/-- One turn of the round loop -/
def roundStep (w : List (BitVec 32)) (v : Hash) (i : ℕ) : Hash :=
  let S1 := sha256Ror v.e 6 ^^^ sha256Ror v.e 11 ^^^ sha256Ror v.e 25
  let ch := v.e &&& v.f ^^^ ~~~v.e &&& v.g
  let t1 := v.h + S1 + ch + BitVec.ofNat 32 (sha256K.getD i 0) + w.getD i 0
  let S0 := sha256Ror v.a 2 ^^^ sha256Ror v.a 13 ^^^ sha256Ror v.a 22
  let maj := v.a &&& v.b ^^^ v.a &&& v.c ^^^ v.b &&& v.c
  let t2 := S0 + maj
  ⟨t1 + t2, v.a, v.b, v.c, v.d + t1, v.e, v.f, v.g⟩

/-- `asmtrace_sha256_block` -/
def sha256Block (s : Sha256) (p : Bytes) : Sha256 :=
  let v := (List.range 64).foldl (roundStep (scheduleWords p)) s.h
  { s with
    h := ⟨s.h.a + v.a, s.h.b + v.b, s.h.c + v.c, s.h.d + v.d, s.h.e + v.e, s.h.f + v.f, s.h.g + v.g,
      s.h.h + v.h⟩ }

/-- One turn of the update loop: fill the buffer, and hash it when it is full. -/
def updateStep (s : Sha256) (data : Bytes) : Sha256 × Bytes :=
  let n := if data.length < 64 - s.nbuf then data.length else 64 - s.nbuf
  let s' := { s with
    buf := s.buf.take s.nbuf ++ data.take n ++ s.buf.drop (s.nbuf + n), nbuf := s.nbuf + n }
  (if s'.nbuf = 64 then { sha256Block s' s'.buf with nbuf := 0 } else s', data.drop n)

/-- `while (len)`, for at most `fuel` turns -/
def updateLoop : ℕ → Sha256 → Bytes → Sha256
  | 0, s, _ => s
  | fuel + 1, s, data =>
    if data.length = 0 then s
    else updateLoop fuel (updateStep s data).1 (updateStep s data).2

def sha256Update (s : Sha256) (data : Bytes) : Sha256 :=
  updateLoop data.length { s with nbits := s.nbits + BitVec.ofNat 64 data.length * 8 } data

/-- `while (s->nbuf != 56)`; nothing comes back when `fuel` turns are not enough. -/
def padLoop : ℕ → Sha256 → Option Sha256
  | 0, _ => none
  | fuel + 1, s => if s.nbuf ≠ 56 then padLoop fuel (sha256Update s [0x00]) else some s

/-- `(uint8_t)(x >> n)` -/
def lowByte {w : ℕ} (x : BitVec w) (n : ℕ) : UInt8 :=
  ⟨(x >>> n).setWidth 8⟩

def lenBe (nbits : BitVec 64) : Bytes :=
  (List.range 8).map fun i => lowByte nbits (56 - i * 8)

/-- `asmtrace_sha256_final` -/
def sha256Final (s : Sha256) : Option Bytes := do
  let nbits := s.nbits
  let s ← padLoop 64 (sha256Update s [0x80])
  let s := sha256Update s (lenBe nbits)
  some (s.h.words.flatMap fun w => [lowByte w 24, lowByte w 16, lowByte w 8, lowByte w 0])

end Code

section Block

lemma sha256Ror_eq (x : BitVec 32) {n : ℕ} (h : n < 32) : sha256Ror x n = x.rotateRight n := by
  rw [BitVec.rotateRight_eq_rotateRightAux_of_lt h]
  rfl

/-- The four shifted bytes do not overlap. -/
lemma loadWord_eq (p : Bytes) (i : ℕ) :
    loadWord p i = wordOf (p.getD (i * 4) 0) (p.getD (i * 4 + 1) 0) (p.getD (i * 4 + 2) 0)
      (p.getD (i * 4 + 3) 0) := by
  have hbyte : ∀ k, (byteAt p k).toNat = (p.getD k 0).toNat := by
    intro k
    have := (p.getD k 0).toNat_lt
    rw [byteAt, BitVec.toNat_setWidth, UInt8.toNat_toBitVec, Nat.mod_eq_of_lt (by omega)]
  have hlt : ∀ k, (p.getD k 0).toNat < 256 := fun k => (p.getD k 0).toNat_lt
  have h0 := hlt (i * 4)
  have h1 := hlt (i * 4 + 1)
  have h2 := hlt (i * 4 + 2)
  have h3 := hlt (i * 4 + 3)
  apply BitVec.eq_of_toNat_eq
  rw [loadWord, wordOf, BitVec.toNat_ofNat, BitVec.toNat_or, BitVec.toNat_or, BitVec.toNat_or,
    BitVec.toNat_shiftLeft, BitVec.toNat_shiftLeft, BitVec.toNat_shiftLeft, hbyte, hbyte, hbyte,
    hbyte]
  generalize (p.getD (i * 4) 0).toNat = b0 at *
  generalize (p.getD (i * 4 + 1) 0).toNat = b1 at *
  generalize (p.getD (i * 4 + 2) 0).toNat = b2 at *
  generalize (p.getD (i * 4 + 3) 0).toNat = b3 at *
  have e2 : b2 <<< 8 % 2 ^ 32 = b2 <<< 8 := Nat.mod_eq_of_lt (by rw [Nat.shiftLeft_eq]; omega)
  have e1 : b1 <<< 16 % 2 ^ 32 = b1 <<< 16 := Nat.mod_eq_of_lt (by rw [Nat.shiftLeft_eq]; omega)
  have e0 : b0 <<< 24 % 2 ^ 32 = b0 <<< 24 := Nat.mod_eq_of_lt (by rw [Nat.shiftLeft_eq]; omega)
  have j1 : b0 <<< 24 ||| b1 <<< 16 = (b0 * 256 + b1) <<< 16 := by
    rw [← Nat.shiftLeft_add_eq_or_of_lt (by rw [Nat.shiftLeft_eq]; omega)]
    simp only [Nat.shiftLeft_eq]
    omega
  have j2 : (b0 * 256 + b1) <<< 16 ||| b2 <<< 8 = ((b0 * 256 + b1) * 256 + b2) <<< 8 := by
    rw [← Nat.shiftLeft_add_eq_or_of_lt (by rw [Nat.shiftLeft_eq]; omega)]
    simp only [Nat.shiftLeft_eq]
    omega
  have j3 : ((b0 * 256 + b1) * 256 + b2) <<< 8 ||| b3 =
      ((b0 * 256 + b1) * 256 + b2) * 256 + b3 := by
    rw [← Nat.shiftLeft_add_eq_or_of_lt (by omega), Nat.shiftLeft_eq]
  rw [e0, e1, e2, j1, j2, j3, Nat.mod_eq_of_lt (by omega)]

lemma scheduleStep_eq (M : ℕ → BitVec 32) {n : ℕ} (hn : 16 ≤ n) :
    scheduleStep ((List.range n).map (schedule M)) n = (List.range (n + 1)).map (schedule M) := by
  have hget : ∀ k < n, ((List.range n).map (schedule M)).getD k 0 = schedule M k := by
    intro k hk
    simp [List.getD_eq_getElem?_getD, hk]
  rw [scheduleStep, hget _ (by omega), hget _ (by omega), hget _ (by omega), hget _ (by omega),
    List.range_succ, List.map_append, List.map_singleton, schedule_of_ge M hn, smallSigma0,
    smallSigma1, sha256Ror_eq _ (by omega), sha256Ror_eq _ (by omega), sha256Ror_eq _ (by omega),
    sha256Ror_eq _ (by omega)]
  congr 2
  ac_rfl

/-- The array `w` is the message schedule. -/
lemma scheduleWords_eq (p : Bytes) :
    scheduleWords p = (List.range 64).map (schedule (loadWord p)) := by
  have hfirst : (List.range 16).map (loadWord p) = (List.range 16).map (schedule (loadWord p)) := by
    apply List.map_congr_left
    intro t ht
    rw [schedule_of_lt _ (List.mem_range.1 ht)]
  have hloop : ∀ n, (List.range' 16 n).foldl scheduleStep ((List.range 16).map (loadWord p)) =
      (List.range (16 + n)).map (schedule (loadWord p)) := by
    intro n
    induction n with
    | zero => exact hfirst
    | succ n ih =>
      rw [List.range'_1_concat, List.foldl_append, ih, List.foldl_cons, List.foldl_nil,
        scheduleStep_eq _ (Nat.le_add_right 16 n)]
      rfl
  exact hloop 48

lemma roundConstant_eq {t : ℕ} (ht : t < 64) :
    BitVec.ofNat 32 (sha256K.getD t 0) = roundConstant t := by
  rw [roundConstant, fracRoot_figures (by decide) sha256K (by decide +kernel) (by decide) ht]

lemma roundStep_eq (p : Bytes) (v : Hash) {i : ℕ} (hi : i < 64) :
    roundStep (scheduleWords p) v i = round v (roundConstant i) (schedule (loadWord p) i) := by
  have hget : (scheduleWords p).getD i 0 = schedule (loadWord p) i := by
    rw [scheduleWords_eq]
    simp [List.getD_eq_getElem?_getD, hi]
  rw [roundStep, hget, roundConstant_eq hi, sha256Ror_eq _ (by omega), sha256Ror_eq _ (by omega),
    sha256Ror_eq _ (by omega), sha256Ror_eq _ (by omega), sha256Ror_eq _ (by omega),
    sha256Ror_eq _ (by omega)]
  rfl

lemma sha256Block_h (s : Sha256) (p : Bytes) :
    (sha256Block s p).h = compress (loadWord p) s.h := by
  have hrounds : (List.range 64).foldl (roundStep (scheduleWords p)) s.h =
      (List.range 64).foldl
        (fun v t => round v (roundConstant t) (schedule (loadWord p) t)) s.h := by
    apply List.foldl_ext
    intro v t ht
    exact roundStep_eq p v (List.mem_range.1 ht)
  rw [sha256Block, compress, hrounds, Hash.add]
  simp only [BitVec.add_comm]

/-- The initial words are the roots of the first eight primes. -/
lemma sha256Init_h (buf : Bytes) : (sha256Init buf).h = initialHash := by
  have hroot : ∀ t < 8, fracRoot 2 (Nat.nth Nat.Prime t) = BitVec.ofNat 32
      ([0x6a09e667, 0xbb67ae85, 0x3c6ef372, 0xa54ff53a, 0x510e527f, 0x9b05688c, 0x1f83d9ab,
        0x5be0cd19].getD t 0) := by
    intro t ht
    exact fracRoot_figures (by decide) _ (by decide +kernel) (by decide) ht
  rw [initialHash, hroot 0 (by omega), hroot 1 (by omega), hroot 2 (by omega), hroot 3 (by omega),
    hroot 4 (by omega), hroot 5 (by omega), hroot 6 (by omega), hroot 7 (by omega)]
  rfl

end Block

section Stream

/-- The state after the bytes `m`: whole blocks are hashed and the rest is in the buffer. -/
structure Absorbed (s : Sha256) (m : Bytes) : Prop where
  nbuf : s.nbuf = m.length % 64
  size : s.buf.length = 64
  rest : s.buf.take s.nbuf = m.drop (64 * (m.length / 64))
  hash : s.h = hashBlocks (bitsOf m) (m.length / 64)

lemma absorbed_init {buf : Bytes} (h : buf.length = 64) : Absorbed (sha256Init buf) [] := by
  constructor
  · rfl
  · exact h
  · rfl
  · rw [sha256Init_h, List.length_nil, Nat.zero_div, hashBlocks_zero]

lemma sha256Block_nbits (s : Sha256) (p : Bytes) : (sha256Block s p).nbits = s.nbits := by
  rw [sha256Block]

/-- A full buffer is the next block of the message. -/
lemma compress_buffer {m d : Bytes} (hd : (m ++ d).length = 64 * (m.length / 64) + 64) :
    compress (loadWord (m.drop (64 * (m.length / 64)) ++ d))
        (hashBlocks (bitsOf m) (m.length / 64)) =
      hashBlocks (bitsOf (m ++ d)) (m.length / 64 + 1) := by
  set n := m.length / 64
  have hle : 64 * n ≤ m.length := Nat.mul_div_le m.length 64
  have hdrop : m.drop (64 * n) ++ d = (m ++ d).drop (64 * n) :=
    (List.drop_append_of_le_length hle).symm
  rw [hashBlocks_succ, bitsOf_append, hashBlocks_append _ (by rw [length_bitsOf]; omega),
    ← bitsOf_append, hdrop]
  apply compress_congr
  intro j hj
  have hget : ∀ k, ((m ++ d).drop (64 * n)).getD k 0 = (m ++ d).getD (64 * n + k) 0 := by
    intro k
    rw [List.getD_eq_getElem?_getD, List.getElem?_drop, List.getD_eq_getElem?_getD]
  rw [loadWord_eq, blockWord_bitsOf (by rw [hd]; omega), hget, hget, hget, hget, Nat.mul_comm j 4]
  simp only [Nat.add_assoc]

/-- One turn takes up the bytes it copies. -/
lemma absorbed_updateStep {s : Sha256} {m : Bytes} (h : Absorbed s m) (data : Bytes) :
    ∃ d, data = d ++ (updateStep s data).2 ∧ Absorbed (updateStep s data).1 (m ++ d) ∧
      (data ≠ [] → d ≠ []) := by
  have hlt : s.nbuf < 64 := by
    rw [h.nbuf]
    exact Nat.mod_lt _ (by omega)
  set n := if data.length < 64 - s.nbuf then data.length else 64 - s.nbuf with hn
  have hle : n ≤ data.length ∧ s.nbuf + n ≤ 64 := by
    rw [hn]
    split_ifs <;> omega
  have htake : (data.take n).length = n := List.length_take_of_le hle.1
  have hm := h.nbuf
  have hsize := h.size
  refine ⟨data.take n, (List.take_append_drop n data).symm, ?_, ?_⟩
  · have hbuf : (s.buf.take s.nbuf ++ data.take n ++ s.buf.drop (s.nbuf + n)).length = 64 := by
      simp only [List.length_append, List.length_take, List.length_drop]
      omega
    have hpre : (s.buf.take s.nbuf ++ data.take n ++ s.buf.drop (s.nbuf + n)).take (s.nbuf + n) =
        m.drop (64 * (m.length / 64)) ++ data.take n := by
      rw [← h.rest, List.take_left']
      rw [List.length_append, List.length_take_of_le (by omega), htake]
    rw [updateStep]
    dsimp only
    rw [← hn]
    by_cases hfull : s.nbuf + n = 64
    · rw [if_pos hfull]
      have hlen : (m ++ data.take n).length = 64 * (m.length / 64) + 64 := by
        rw [List.length_append, htake]
        omega
      have hwhole : s.buf.take s.nbuf ++ data.take n ++ s.buf.drop (s.nbuf + n) =
          m.drop (64 * (m.length / 64)) ++ data.take n := by
        rw [← hpre]
        exact (List.take_of_length_le (by rw [hbuf, hfull])).symm
      constructor
      · rw [hlen]
        dsimp only
        omega
      · exact hbuf
      · rw [hlen, List.take_zero, List.drop_of_length_le (by rw [hlen]; omega)]
      · dsimp only
        rw [sha256Block_h, hlen, show (64 * (m.length / 64) + 64) / 64 = m.length / 64 + 1 by omega,
          ← compress_buffer hlen, ← h.hash, hwhole]
    · rw [if_neg hfull]
      have hdiv : (m ++ data.take n).length / 64 = m.length / 64 := by
        rw [List.length_append, htake]
        omega
      constructor
      · rw [List.length_append, htake]
        dsimp only
        omega
      · exact hbuf
      · dsimp only
        rw [hpre, hdiv, List.drop_append_of_le_length (Nat.mul_div_le _ _)]
      · dsimp only
        rw [h.hash, hdiv, bitsOf_append, hashBlocks_append]
        rw [length_bitsOf]
        omega
  · intro hne hnil
    have hpos := List.length_pos_of_ne_nil hne
    rw [hnil, List.length_nil] at htake
    rw [hn] at htake
    split_ifs at htake <;> omega

lemma absorbed_updateLoop {s : Sha256} {m data : Bytes} (h : Absorbed s m) {fuel : ℕ}
    (hf : data.length ≤ fuel) : Absorbed (updateLoop fuel s data) (m ++ data) := by
  induction fuel generalizing s m data with
  | zero =>
    rw [List.length_eq_zero_iff.1 (Nat.le_zero.1 hf), List.append_nil]
    exact h
  | succ fuel ih =>
    rw [updateLoop]
    split_ifs with h0
    · rw [List.length_eq_zero_iff.1 h0, List.append_nil]
      exact h
    · obtain ⟨d, hd, habs, hne⟩ := absorbed_updateStep h data
      have hpos := List.length_pos_of_ne_nil (hne fun hnil => h0 (by rw [hnil]; rfl))
      have hlen := congrArg List.length hd
      rw [List.length_append] at hlen
      have hloop := ih habs (show (updateStep s data).2.length ≤ fuel by omega)
      rwa [List.append_assoc, ← hd] at hloop

/-- The counter does not matter to what is absorbed. -/
lemma absorbed_update {s : Sha256} {m : Bytes} (h : Absorbed s m) (data : Bytes) :
    Absorbed (sha256Update s data) (m ++ data) := by
  rw [sha256Update]
  apply absorbed_updateLoop _ le_rfl
  exact ⟨h.nbuf, h.size, h.rest, h.hash⟩

lemma updateStep_nbits (s : Sha256) (data : Bytes) : (updateStep s data).1.nbits = s.nbits := by
  rw [updateStep]
  dsimp only
  by_cases hfull : s.nbuf + (if data.length < 64 - s.nbuf then data.length else 64 - s.nbuf) = 64
  · rw [if_pos hfull]
    dsimp only
    rw [sha256Block_nbits]
  · rw [if_neg hfull]

lemma updateLoop_nbits (fuel : ℕ) (s : Sha256) (data : Bytes) :
    (updateLoop fuel s data).nbits = s.nbits := by
  induction fuel generalizing s data with
  | zero => rfl
  | succ fuel ih =>
    rw [updateLoop]
    split_ifs
    · rfl
    · rw [ih, updateStep_nbits]

lemma sha256Update_nbits (s : Sha256) (data : Bytes) :
    (sha256Update s data).nbits = s.nbits + BitVec.ofNat 64 data.length * 8 := by
  rw [sha256Update, updateLoop_nbits]

/-- Every way of splitting a message leads to the state of the whole. -/
lemma absorbed_foldl {s : Sha256} {m : Bytes} (h : Absorbed s m) (chunks : List Bytes) :
    Absorbed (chunks.foldl sha256Update s) (m ++ chunks.flatten) ∧
      (chunks.foldl sha256Update s).nbits =
        s.nbits + BitVec.ofNat 64 chunks.flatten.length * 8 := by
  induction chunks generalizing s m with
  | nil =>
    rw [List.flatten_nil, List.append_nil]
    exact ⟨h, by simp⟩
  | cons data chunks ih =>
    obtain ⟨habs, hbits⟩ := ih (absorbed_update h data)
    rw [List.foldl_cons, List.flatten_cons, ← List.append_assoc]
    refine ⟨habs, ?_⟩
    rw [hbits, sha256Update_nbits, List.length_append, BitVec.ofNat_add, BitVec.add_mul,
      BitVec.add_assoc]

end Stream

section Final

/-- The zero bytes that `final` adds to `l` bytes -/
def zeroBytes (l : ℕ) : ℕ :=
  (120 - l % 64) % 64

lemma padLoop_absorbed {fuel : ℕ} {s : Sha256} {m : Bytes} (h : Absorbed s m)
    (hf : zeroBytes m.length < fuel) :
    ∃ s', padLoop fuel s = some s' ∧
      Absorbed s' (m ++ List.replicate (zeroBytes m.length) 0) := by
  induction fuel generalizing s m with
  | zero => exact absurd hf (Nat.not_lt_zero _)
  | succ fuel ih =>
    have hnbuf := h.nbuf
    rw [padLoop]
    by_cases hdone : s.nbuf = 56
    · rw [if_neg (not_not.2 hdone)]
      have hz : zeroBytes m.length = 0 := by
        rw [zeroBytes]
        omega
      rw [hz, List.replicate_zero, List.append_nil]
      exact ⟨s, rfl, h⟩
    · rw [if_pos hdone]
      have hz : zeroBytes m.length = zeroBytes (m ++ [0x00]).length + 1 := by
        rw [zeroBytes, zeroBytes, List.length_append, List.length_singleton]
        omega
      obtain ⟨s', hs', habs⟩ := ih (absorbed_update h [0x00]) (by omega)
      refine ⟨s', hs', ?_⟩
      rw [List.append_assoc] at habs
      rw [hz, List.replicate_succ]
      exact habs

/-- Bytes taken off from the top are the bits of the number. -/
lemma bitsOf_lowBytes {w : ℕ} (x : BitVec w) (k : ℕ) :
    bitsOf ((List.range k).map fun i => lowByte x (8 * (k - 1 - i))) = toBits (8 * k) x.toNat := by
  induction k with
  | zero => rfl
  | succ k ih =>
    have hbyte : (lowByte x (8 * k)).toNat = (x.toNat >>> (8 * k)) % 2 ^ 8 := by
      rw [lowByte, UInt8.toNat, BitVec.toNat_setWidth, BitVec.toNat_ushiftRight]
    have hrest : (List.range k).map (fun i => lowByte x (8 * (k + 1 - 1 - (i + 1)))) =
        (List.range k).map fun i => lowByte x (8 * (k - 1 - i)) := by
      apply List.map_congr_left
      intro i _
      congr 2
      omega
    rw [List.range_succ_eq_map, List.map_cons, List.map_map, bitsOf_cons, Nat.mul_succ,
      Nat.add_comm (8 * k), toBits_add, ← ih, ← hrest, ← toBits_mod 8 (x.toNat >>> (8 * k)),
      ← hbyte]
    rfl

lemma bitsOf_lenBe (nbits : BitVec 64) : bitsOf (lenBe nbits) = toBits 64 nbits.toNat := by
  have h := bitsOf_lowBytes nbits 8
  rw [← h, lenBe]
  apply congrArg
  apply List.map_congr_left
  intro i hi
  rw [List.mem_range] at hi
  congr 1
  omega

lemma bitsOf_word (w : BitVec 32) :
    bitsOf [lowByte w 24, lowByte w 16, lowByte w 8, lowByte w 0] = toBits 32 w.toNat :=
  bitsOf_lowBytes w 4

/-- All that `final` has fed through the update -/
def padded (m : Bytes) (nbits : BitVec 64) : Bytes :=
  m ++ [0x80] ++ List.replicate (zeroBytes (m ++ [0x80]).length) 0 ++ lenBe nbits

/-- What `final` adds is the padding of the standard. -/
lemma bitsOf_padded (m : Bytes) {nbits : BitVec 64} (hbits : nbits.toNat = 8 * m.length) :
    bitsOf (padded m nbits) = pad (bitsOf m) := by
  have hone : bitsOf [0x80] = [true] ++ List.replicate 7 false := rfl
  have hzero : zeroCount (8 * m.length) = 7 + 8 * zeroBytes (m.length + 1) := by
    rw [zeroCount, zeroBytes]
    omega
  rw [padded, pad, length_bitsOf, bitsOf_append, bitsOf_append, bitsOf_append, bitsOf_lenBe, hbits,
    hone, bitsOf_replicate_zero, List.length_append, List.length_singleton, hzero,
    ← List.replicate_append_replicate]
  simp only [List.append_assoc]

/-- For every message of fewer than 2 ^ 61 bytes and every way of splitting it into updates, the
digest is that of the standard. -/
theorem sha256_streaming_exact (buf : Bytes) (hbuf : buf.length = 64) (chunks : List Bytes)
    (hlen : chunks.flatten.length < 2 ^ 61) :
    ∃ out, sha256Final (chunks.foldl sha256Update (sha256Init buf)) = some out ∧
      bitsOf out = sha256 (bitsOf chunks.flatten) := by
  obtain ⟨habs, hnbits⟩ := absorbed_foldl (absorbed_init hbuf) chunks
  set s := chunks.foldl sha256Update (sha256Init buf)
  set m := chunks.flatten
  rw [List.nil_append] at habs
  have hbits : s.nbits.toNat = 8 * m.length := by
    rw [hnbits]
    change (0#64 + BitVec.ofNat 64 m.length * 8#64).toNat = _
    rw [BitVec.zero_add, BitVec.toNat_mul, BitVec.toNat_ofNat, BitVec.toNat_ofNat]
    omega
  have hpad := absorbed_update habs [0x80]
  obtain ⟨s', hs', habs'⟩ := @padLoop_absorbed 64 _ _ hpad (Nat.mod_lt _ (by omega))
  have hfin : Absorbed (sha256Update s' (lenBe s.nbits)) (padded m s.nbits) :=
    absorbed_update habs' (lenBe s.nbits)
  have hwords := hfin.hash
  rw [bitsOf_padded m hbits] at hwords
  -- the padded message is whole blocks
  have hcount : (padded m s.nbits).length / 64 = (pad (bitsOf m)).length / 512 := by
    rw [← bitsOf_padded m hbits, length_bitsOf]
    omega
  rw [hcount] at hwords
  refine ⟨(sha256Update s' (lenBe s.nbits)).h.words.flatMap fun w =>
    [lowByte w 24, lowByte w 16, lowByte w 8, lowByte w 0], ?_, ?_⟩
  · rw [sha256Final]
    change (padLoop 64 (sha256Update s [0x80])).bind _ = _
    rw [hs', Option.bind_some]
  · rw [bitsOf, List.flatMap_assoc, sha256, ← hwords]
    apply List.flatMap_congr
    intro w _
    exact bitsOf_word w

/-- An empty chunk and a message split in the middle -/
theorem sha256_streaming_exact_abc :
    ∃ out, sha256Final ([[], [0x61, 0x62], [0x63]].foldl sha256Update
        (sha256Init (List.replicate 64 0xAA))) = some out ∧
      bitsOf out = sha256 (bitsOf [0x61, 0x62, 0x63]) :=
  sha256_streaming_exact (List.replicate 64 0xAA) (by decide) [[], [0x61, 0x62], [0x63]] (by decide)

example : sha256Final (sha256Update (sha256Init (List.replicate 64 0)) [0x61, 0x62, 0x63]) =
    some [0xba, 0x78, 0x16, 0xbf, 0x8f, 0x01, 0xcf, 0xea, 0x41, 0x41, 0x40, 0xde, 0x5d, 0xae, 0x22,
      0x23, 0xb0, 0x03, 0x61, 0xa3, 0x96, 0x17, 0x7a, 0x9c, 0xb4, 0x10, 0xff, 0x61, 0xf2, 0x00,
      0x15, 0xad] := by
  decide +kernel

end Final

end AsmTest.Doc
