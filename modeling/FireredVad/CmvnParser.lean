import FireredVad.Checked
import FireredVad.FeatureExtractor
import Mathlib.Data.Fin.Tuple.Basic
import Mathlib.Data.Fin.VecNotation
import Mathlib.Tactic.FinCases

/-!
# Reading the normalization statistics

`from_ark_bytes` walks over the bytes of a Kaldi double matrix with a cursor. Every access
of it is checked here: a panic is `none`, and the only error it returns is
`Error::InvalidCmvn`. The parser accepts exactly the byte strings that start with the
header and the matrix, and what it returns does not depend on what follows them.
-/

namespace FireredVad
open Checked Simd

/-- `Error::InvalidCmvn`. -/
structure InvalidCmvn where
  reason : String
  deriving DecidableEq, Repr

/-- `f64::from_le_bytes`. -/
class FromLeBytes (F : Type) where
  fromLeBytes : (Fin 8 → UInt8) → F

/-- `i32::from_le_bytes`. -/
def i32FromLeBytes (b : Fin 4 → UInt8) : ℤ :=
  let n : ℕ := (b 0).toNat + 256 * (b 1).toNat + 65536 * (b 2).toNat + 16777216 * (b 3).toNat
  if n < 2147483648 then n else n - 4294967296

abbrev Parser (α : Type) := ExceptT InvalidCmvn Option α

namespace Cmvn

section Header

variable (bytes : List UInt8)

/-- The closure `need`. -/
def need (i n : ℕ) : Parser Unit := check (i + n ≤ bytes.length) ⟨"truncated header"⟩

/-- The magic and the matrix marker: as many bytes as the literal has are compared. -/
def literal (i : ℕ) (expected : List UInt8) (reason : String) : Parser Unit := do
  need bytes i expected.length
  let found ← access (slice? bytes i (i + expected.length))
  check (found = expected) ⟨reason⟩

/-- The array `[bytes[i], .., bytes[i + n - 1]]`. -/
def bytesAt (i : ℕ) : (n : ℕ) → Parser (Fin n → UInt8)
  | 0 => return Fin.elim0
  | n + 1 => do
    let b ← bytesAt i n
    let last ← access bytes[i + n]?
    return (Fin.snoc b last : Fin (n + 1) → UInt8)

/-- The size token 4, and the four bytes behind it as an integer. -/
def sizedI32 (i : ℕ) (reason : String) : Parser ℤ := do
  need bytes i 1
  let token ← access bytes[i]?
  check (token = 4) ⟨reason⟩
  let i := i + 1
  need bytes i 4
  let b ← bytesAt bytes i 4
  return i32FromLeBytes b

/-- The number of rows and columns, and the cursor behind them. -/
def header : Parser (ℕ × ℤ × ℤ) := do
  let i := 0
  literal bytes i [0x00, 0x42] "missing \\0B magic"
  let i := i + 2
  literal bytes i [0x44, 0x4D, 0x20] "expected double-matrix marker 'DM '"
  let i := i + 3
  let rows ← sizedI32 bytes i "expected 4-byte int32 size token before rows"
  let i := i + 1 + 4
  check (rows = 2) ⟨"expected exactly 2 rows (sums, sum_sqs)"⟩
  let cols ← sizedI32 bytes i "expected 4-byte int32 size token before cols"
  let i := i + 1 + 4
  check (cols = (numMelBins : ℤ) + 1) ⟨"expected NUM_MEL_BINS + 1 columns"⟩
  return (i, rows, cols)

end Header

section Body

variable {F32 F64 : Type} [FloatOps F32] [FloatMath F64] [FloatCast F32 F64] [FromLeBytes F64]

/-- The loop that fills `data`, `n` values from `p` on. -/
def readData (bytes : List UInt8) (p : ℕ) : ℕ → Parser (List F64)
  | 0 => return []
  | n + 1 => do
    let b ← bytesAt bytes p 8
    let rest ← readData bytes (p + 8) n
    return FromLeBytes.fromLeBytes b :: rest

/-- The smallest variance that is divided by. -/
def varianceFloor : F64 := FloatOps.lit (1 / 10 ^ 20)

def floorVariance (var : F64) : F64 := if var < varianceFloor then varianceFloor else var

def meanOf (sum count : F64) : F64 := sum / count

def inverseStdOf (sum sumSq count : F64) : F64 :=
  let mean := meanOf sum count
  FloatOps.lit 1 / FloatMath.sqrt (floorVariance (sumSq / count - mean * mean))

/-- The body of the loop over the bins. -/
def binStats (data : List F64) (count : F64) (rowStride d : ℕ) : Parser (F32 × F32) := do
  let sum ← access data[d]?
  let sumSq ← access data[rowStride + d]?
  check (¬ (FloatOps.isFinite sum = false ∨ FloatOps.isFinite sumSq = false))
    ⟨"non-finite stat (NaN or Inf) in CMVN matrix"⟩
  let meanF32 : F32 := FloatCast.narrow (meanOf sum count)
  let istdF32 : F32 := FloatCast.narrow (inverseStdOf sum sumSq count)
  check (¬ (FloatOps.isFinite meanF32 = false ∨ FloatOps.isFinite istdF32 = false))
    ⟨"non-finite mean or inverse-std after normalization"⟩
  return (meanF32, istdF32)

/-- The loop over the first `n` bins, which pushes one value to each vector. -/
def allStats (data : List F64) (count : F64) (rowStride : ℕ) :
    (n : ℕ) → Parser (Slice F32 n × Slice F32 n)
  | 0 => return (Fin.elim0, Fin.elim0)
  | n + 1 => do
    let r ← allStats data count rowStride n
    let stats : F32 × F32 ← binStats data count rowStride n
    return (Fin.snoc r.1 stats.1, Fin.snoc r.2 stats.2)

/-- Behind the header: the matrix, its count, and the statistics of all bins. -/
def matrixStats (F64 : Type) [FloatMath F64] [FloatCast F32 F64] [FromLeBytes F64]
    (bytes : List UInt8) (i : ℕ) (rows cols : ℤ) : Parser (Cmvn F32) := do
  let total := rows.toNat * cols.toNat * 8
  need bytes i total
  let data : List F64 ← readData bytes i (rows.toNat * cols.toNat)
  let count ← access data[numMelBins]?
  check (FloatOps.isFinite count = true ∧ FloatOps.lit 1 ≤ count) ⟨"non-positive CMVN count"⟩
  let rowStride := cols.toNat
  let r : Slice F32 numMelBins × Slice F32 numMelBins ← allStats data count rowStride numMelBins
  return { means := r.1, inverseStdVariances := r.2 }

def fromArkBytes (F64 : Type) [FloatMath F64] [FloatCast F32 F64] [FromLeBytes F64]
    (bytes : List UInt8) : Parser (Cmvn F32) := do
  let h ← header bytes
  matrixStats F64 bytes h.1 h.2.1 h.2.2

end Body

/-! What each part of the parser decides. -/

theorem i32FromLeBytes_eq_iff (b : Fin 4 → UInt8) (n : UInt8) :
    i32FromLeBytes b = n.toNat ↔ b 0 = n ∧ b 1 = 0 ∧ b 2 = 0 ∧ b 3 = 0 := by
  have h0 := (b 0).toNat_lt
  have h1 := (b 1).toNat_lt
  have h2 := (b 2).toNat_lt
  have h3 := (b 3).toNat_lt
  have hn := n.toNat_lt
  simp only [i32FromLeBytes, ← UInt8.toNat_inj, UInt8.toNat_zero]
  split <;> omega

section Decided

variable (bytes : List UInt8)

theorem need_decides (i n : ℕ) : Decides (need bytes i n) fun _ => i + n ≤ bytes.length :=
  decides_check _ _

private theorem isSome_of_lt {α : Type} {xs : List α} {i : ℕ} (h : i < xs.length) :
    xs[i]?.isSome := by
  rw [List.getElem?_eq_getElem h]
  rfl

theorem literal_decides (i : ℕ) (expected : List UInt8) (hne : 0 < expected.length)
    (reason : String) :
    Decides (literal bytes i expected reason) fun _ => expected <+: bytes.drop i := by
  have hslice (h : i + expected.length ≤ bytes.length) :
      slice? bytes i (i + expected.length) = some ((bytes.drop i).take expected.length) := by
    rw [slice?_eq (Nat.le_add_right _ _) h, Nat.add_sub_cancel_left]
  have h := (need_decides bytes i expected.length).bind fun _ hlen =>
    (decides_access (Option.isSome_iff_exists.mpr ⟨_, hslice hlen⟩)).bind fun found _ =>
      decides_check (found = expected) (⟨reason⟩ : InvalidCmvn)
  refine h.congr fun _ => ?_
  rw [List.prefix_iff_eq_take]
  constructor
  · rintro ⟨_, hlen, found, hfound, rfl⟩
    rw [hslice hlen] at hfound
    exact (Option.some.inj hfound).symm
  · intro htake
    have hlength := congrArg List.length htake
    rw [List.length_take, List.length_drop] at hlength
    have hlen : i + expected.length ≤ bytes.length := by omega
    exact ⟨(), hlen, _, hslice hlen, htake.symm⟩

theorem bytesAt_decides (i n : ℕ) (hlen : i + n ≤ bytes.length) :
    Decides (bytesAt bytes i n) fun b => ∀ k : Fin n, bytes[i + k.val]? = some (b k) := by
  induction n with
  | zero => exact (decides_pure _).congr fun b => iff_of_true (Subsingleton.elim _ _) (by simp)
  | succ n ih =>
    have h := (ih (by omega)).bind fun b _ =>
      (decides_access (isSome_of_lt (Nat.lt_of_succ_le hlen))).bind fun last _ =>
        decides_pure (Fin.snoc b last : Fin (n + 1) → UInt8)
    refine h.congr fun b => ?_
    rw [Fin.forall_fin_succ']
    constructor
    · rintro ⟨init, hinit, last, hlast, rfl⟩
      simpa using ⟨hinit, hlast⟩
    · rintro ⟨hinit, hlast⟩
      exact ⟨Fin.init b, hinit, b (Fin.last n), hlast, (Fin.snoc_init_self b).symm⟩

/-- The token and a small integer in four bytes. -/
theorem sizedI32_decides (i : ℕ) (reason : String) :
    Decides (sizedI32 bytes i reason) fun v => ∃ b : Fin 4 → UInt8, bytes[i]? = some 4 ∧
      (∀ k : Fin 4, bytes[i + 1 + k.val]? = some (b k)) ∧ v = i32FromLeBytes b := by
  have h := (need_decides bytes i 1).bind fun _ hone =>
    (decides_access (isSome_of_lt (Nat.lt_of_succ_le hone))).bind fun token _ =>
      (decides_check (token = 4) (⟨reason⟩ : InvalidCmvn)).bind fun _ _ =>
        (need_decides bytes (i + 1) 4).bind fun _ hfour =>
          (bytesAt_decides bytes (i + 1) 4 hfour).bind fun b _ => decides_pure (i32FromLeBytes b)
  refine h.congr fun v => ?_
  constructor
  · rintro ⟨_, -, token, htoken, _, rfl, _, -, b, hb, rfl⟩
    exact ⟨b, htoken, hb, rfl⟩
  · rintro ⟨b, htoken, hb, rfl⟩
    have hlen : i + 1 + 3 < bytes.length := (List.getElem?_eq_some_iff.mp (hb 3)).1
    exact ⟨(), by omega, 4, htoken, (), rfl, (), by omega, b, hb, rfl⟩

/-- A token and a small integer are five literal bytes. -/
theorem sized_iff_isPrefix (i : ℕ) (n : UInt8) :
    (∃ b : Fin 4 → UInt8, bytes[i]? = some 4 ∧
      (∀ k : Fin 4, bytes[i + 1 + k.val]? = some (b k)) ∧ n.toNat = i32FromLeBytes b) ↔
      [4, n, 0, 0, 0] <+: bytes.drop i := by
  simp only [cons_isPrefix_drop, List.nil_prefix, and_true]
  constructor
  · rintro ⟨b, htoken, hb, hn⟩
    obtain ⟨h0, h1, h2, h3⟩ := (i32FromLeBytes_eq_iff b n).mp hn.symm
    exact ⟨htoken, h0 ▸ hb 0, h1 ▸ hb 1, h2 ▸ hb 2, h3 ▸ hb 3⟩
  · rintro ⟨htoken, h0, h1, h2, h3⟩
    refine ⟨![n, 0, 0, 0], htoken, ?_, ?_⟩
    · intro k
      fin_cases k
      · exact h0
      · exact h1
      · exact h2
      · exact h3
    · exact ((i32FromLeBytes_eq_iff _ n).mpr ⟨rfl, rfl, rfl, rfl⟩).symm

/-- The bytes of a header: the magic, the marker, 2 rows and 81 columns. -/
def arkHeader : List UInt8 :=
  [0x00, 0x42] ++ [0x44, 0x4D, 0x20] ++ [4, 2, 0, 0, 0] ++ [4, 81, 0, 0, 0]

theorem header_decides :
    Decides (header bytes) fun r =>
      arkHeader <+: bytes ∧ r = (arkHeader.length, 2, (numMelBins : ℤ) + 1) := by
  have h := (literal_decides bytes 0 [0x00, 0x42] (by decide) "missing \\0B magic").bind fun _ _ =>
    (literal_decides bytes (0 + 2) [0x44, 0x4D, 0x20] (by decide)
        "expected double-matrix marker 'DM '").bind fun _ _ =>
      (sizedI32_decides bytes (0 + 2 + 3)
          "expected 4-byte int32 size token before rows").bind fun rows _ =>
        (decides_check (rows = 2)
            (⟨"expected exactly 2 rows (sums, sum_sqs)"⟩ : InvalidCmvn)).bind fun _ _ =>
          (sizedI32_decides bytes (0 + 2 + 3 + 1 + 4)
              "expected 4-byte int32 size token before cols").bind fun cols _ =>
            (decides_check (cols = (numMelBins : ℤ) + 1)
                (⟨"expected NUM_MEL_BINS + 1 columns"⟩ : InvalidCmvn)).bind fun _ _ =>
              decides_pure (0 + 2 + 3 + 1 + 4 + 1 + 4, rows, cols)
  refine h.congr fun r => ?_
  have hark : arkHeader <+: bytes ↔
      [0x00, 0x42] <+: bytes.drop 0 ∧ [0x44, 0x4D, 0x20] <+: bytes.drop 2 ∧
        [4, 2, 0, 0, 0] <+: bytes.drop 5 ∧ [4, 81, 0, 0, 0] <+: bytes.drop 10 := by
    rw [← List.drop_zero (l := bytes), arkHeader, append_isPrefix_drop, append_isPrefix_drop,
      append_isPrefix_drop, and_assoc, and_assoc]
    rfl
  rw [hark, ← sized_iff_isPrefix, ← sized_iff_isPrefix]
  constructor
  · rintro ⟨_, hmagic, _, hmarker, rows, hrows, _, rfl, cols, hcols, _, rfl, rfl⟩
    exact ⟨⟨hmagic, hmarker, hrows, hcols⟩, rfl⟩
  · rintro ⟨⟨hmagic, hmarker, hrows, hcols⟩, rfl⟩
    exact ⟨(), hmagic, (), hmarker, _, hrows, (), rfl, _, hcols, (), rfl, rfl⟩

end Decided

section Accepted

variable {F32 F64 : Type} [FloatOps F32] [FloatMath F64] [FloatCast F32 F64] [FromLeBytes F64]

/-- The `j`-th value of the matrix that starts at byte `p`. -/
def matrixValue (bytes : List UInt8) (p j : ℕ) : F64 :=
  FromLeBytes.fromLeBytes fun k => bytes.getD (p + 8 * j + k.val) 0

omit [FloatMath F64] in
theorem readData_decides (bytes : List UInt8) (p n : ℕ) (hlen : p + 8 * n ≤ bytes.length) :
    Decides (readData bytes p n : Parser (List F64)) fun data =>
      data = (List.range n).map (matrixValue bytes p) := by
  induction n generalizing p with
  | zero => exact decides_pure _
  | succ n ih =>
    have h := (bytesAt_decides bytes p 8 (by omega)).bind fun b _ =>
      (ih (p + 8) (by omega)).bind fun rest _ =>
        decides_pure (FromLeBytes.fromLeBytes b :: rest : List F64)
    refine h.congr fun data => ?_
    have hshift : matrixValue bytes (p + 8) = fun j => (matrixValue bytes p (j + 1) : F64) := by
      funext j
      simp only [matrixValue]
      congr 1
      funext k
      congr 1
      omega
    have hdata : (List.range (n + 1)).map (matrixValue bytes p) =
        (matrixValue bytes p 0 :: (List.range n).map (matrixValue bytes (p + 8)) : List F64) := by
      rw [List.range_succ_eq_map, List.map_cons, List.map_map, hshift]
      rfl
    rw [hdata]
    have hbyte (k : Fin 8) : bytes[p + k.val]? = some (bytes.getD (p + 8 * 0 + k.val) 0) := by
      have hk : p + k.val < bytes.length := by omega
      simp [hk]
    constructor
    · rintro ⟨b, hb, _, rfl, rfl⟩
      obtain rfl : b = fun k => bytes.getD (p + 8 * 0 + k.val) 0 := by
        funext k
        exact Option.some.inj ((hb k).symm.trans (hbyte k))
      rfl
    · rintro rfl
      exact ⟨_, hbyte, _, rfl, rfl⟩

/-- The statistics of one bin are usable, and these are its mean `sum / count` and its inverse
standard deviation `1 / sqrt(max(1e-20, sumSq / count - mean²))`. -/
structure BinAccepted (sum sumSq count : F64) (mean inverseStd : F32) : Prop where
  sum_finite : FloatOps.isFinite sum = true
  sumSq_finite : FloatOps.isFinite sumSq = true
  mean_eq : mean = FloatCast.narrow (sum / count)
  inverseStd_eq : inverseStd = FloatCast.narrow (FloatOps.lit 1 / FloatMath.sqrt
    (if sumSq / count - sum / count * (sum / count) < FloatOps.lit (1 / 10 ^ 20) then
      FloatOps.lit (1 / 10 ^ 20)
    else sumSq / count - sum / count * (sum / count)))
  mean_finite : FloatOps.isFinite mean = true
  inverseStd_finite : FloatOps.isFinite inverseStd = true

omit [FromLeBytes F64] in
theorem binStats_decides {data : List F64} (count : F64) {sum sumSq : F64} {rowStride d : ℕ}
    (hsum : data[d]? = some sum) (hsumSq : data[rowStride + d]? = some sumSq) :
    Decides (binStats data count rowStride d : Parser (F32 × F32)) fun r =>
      BinAccepted sum sumSq count r.1 r.2 := by
  have h := (decides_access (Option.isSome_iff_exists.mpr ⟨_, hsum⟩)).bind fun x _ =>
    (decides_access (Option.isSome_iff_exists.mpr ⟨_, hsumSq⟩)).bind fun y _ =>
      (decides_check (¬ (FloatOps.isFinite x = false ∨ FloatOps.isFinite y = false))
          (⟨"non-finite stat (NaN or Inf) in CMVN matrix"⟩ : InvalidCmvn)).bind fun _ _ =>
        (decides_check (¬ (FloatOps.isFinite (FloatCast.narrow (meanOf x count) : F32) = false ∨
            FloatOps.isFinite (FloatCast.narrow (inverseStdOf x y count) : F32) = false))
            (⟨"non-finite mean or inverse-std after normalization"⟩ : InvalidCmvn)).bind fun _ _ =>
          decides_pure ((FloatCast.narrow (meanOf x count), FloatCast.narrow
            (inverseStdOf x y count)) : F32 × F32)
  refine h.congr fun r => ?_
  constructor
  · rintro ⟨x, hx, y, hy, _, hin, _, hout, rfl⟩
    obtain rfl := Option.some.inj (hsum.symm.trans hx)
    obtain rfl := Option.some.inj (hsumSq.symm.trans hy)
    simp only [not_or, Bool.not_eq_false] at hin hout
    exact ⟨hin.1, hin.2, rfl, rfl, hout.1, hout.2⟩
  · obtain ⟨mean, inverseStd⟩ := r
    rintro ⟨hx, hy, rfl, rfl, hmean, hinverseStd⟩
    have hmean' : FloatOps.isFinite (FloatCast.narrow (meanOf sum count) : F32) = true := hmean
    have hinverseStd' :
        FloatOps.isFinite (FloatCast.narrow (inverseStdOf sum sumSq count) : F32) = true :=
      hinverseStd
    exact ⟨sum, hsum, sumSq, hsumSq, (), by simp [hx, hy], (), by simp [hmean', hinverseStd'], rfl⟩

omit [FromLeBytes F64] in
theorem allStats_decides {data : List F64} (count : F64) {rowStride : ℕ} (v : ℕ → F64) (n : ℕ)
    (hsum : ∀ d < n, data[d]? = some (v d))
    (hsumSq : ∀ d < n, data[rowStride + d]? = some (v (rowStride + d))) :
    Decides (allStats data count rowStride n : Parser (Slice F32 n × Slice F32 n)) fun r =>
      ∀ d : Fin n, BinAccepted (v d) (v (rowStride + d)) count (r.1 d) (r.2 d) := by
  induction n with
  | zero => exact (decides_pure _).congr fun r => iff_of_true (Subsingleton.elim _ _) (by simp)
  | succ n ih =>
    have h := (ih (fun d hd => hsum d (by omega)) fun d hd => hsumSq d (by omega)).bind
      fun r _ => (binStats_decides count (hsum n (by omega))
        (hsumSq n (by omega))).bind fun stats _ =>
          decides_pure ((Fin.snoc r.1 stats.1, Fin.snoc r.2 stats.2) :
            Slice F32 (n + 1) × Slice F32 (n + 1))
    refine h.congr fun r => ?_
    rw [Fin.forall_fin_succ']
    constructor
    · rintro ⟨r, hr, stats, hstats, rfl⟩
      simpa using ⟨hr, hstats⟩
    · rintro ⟨hr, hlast⟩
      refine ⟨(Fin.init r.1, Fin.init r.2), hr, (r.1 (Fin.last n), r.2 (Fin.last n)), hlast, ?_⟩
      exact Prod.ext (Fin.snoc_init_self r.1).symm (Fin.snoc_init_self r.2).symm

variable (F64) in
/-- From byte `p` on there is at least a whole matrix with usable statistics, and the means
and inverse standard deviations are those of the matrix. -/
structure MatrixAccepted (bytes : List UInt8) (p : ℕ) (c : Cmvn F32) : Prop where
  length : p + 2 * (numMelBins + 1) * 8 ≤ bytes.length
  count_finite : FloatOps.isFinite (matrixValue bytes p numMelBins : F64) = true
  one_le_count : FloatOps.lit 1 ≤ (matrixValue bytes p numMelBins : F64)
  bins : ∀ d : Fin numMelBins, BinAccepted (matrixValue bytes p d : F64)
    (matrixValue bytes p (numMelBins + 1 + d)) (matrixValue bytes p numMelBins) (c.means d)
    (c.inverseStdVariances d)

theorem matrixStats_decides (bytes : List UInt8) (p : ℕ) :
    Decides (matrixStats F64 bytes p 2 ((numMelBins : ℤ) + 1) : Parser (Cmvn F32))
      (MatrixAccepted F64 bytes p) := by
  let n : ℕ := 2 * (numMelBins + 1)
  let v : ℕ → F64 := matrixValue bytes p
  let data : List F64 := (List.range n).map v
  have hget (j : ℕ) (hj : j < n) : data[j]? = some (v j) := by
    simp [data, hj]
  have hread (hlen : p + n * 8 ≤ bytes.length) :
      Decides (readData bytes p n : Parser (List F64)) (· = data) :=
    readData_decides bytes p n (by omega)
  have hstats (count : F64) :
      Decides (allStats data count (numMelBins + 1) numMelBins :
        Parser (Slice F32 numMelBins × Slice F32 numMelBins)) _ :=
    allStats_decides count v numMelBins (fun d hd => hget d (by omega))
      fun d hd => hget _ (by omega)
  have h := (need_decides bytes p (n * 8)).bind fun _ hlen =>
    (hread hlen).bind fun xs hxs =>
      (decides_access (Option.isSome_iff_exists.mpr ⟨_, hxs ▸ hget numMelBins (by omega)⟩)).bind
        fun count _ =>
          (decides_check (FloatOps.isFinite count = true ∧ FloatOps.lit 1 ≤ count)
              (⟨"non-positive CMVN count"⟩ : InvalidCmvn)).bind fun _ _ =>
            (hxs ▸ hstats count).bind fun r _ =>
              decides_pure ({ means := r.1, inverseStdVariances := r.2 } : Cmvn F32)
  refine h.congr fun c => ?_
  constructor
  · rintro ⟨_, hlen, _, rfl, count, hcount, _, ⟨hfinite, hone⟩, r, hr, rfl⟩
    obtain rfl := Option.some.inj ((hget numMelBins (by omega)).symm.trans hcount)
    exact ⟨hlen, hfinite, hone, hr⟩
  · rintro ⟨hlen, hfinite, hone, hbins⟩
    exact ⟨(), hlen, _, rfl, _, hget numMelBins (by omega), (), ⟨hfinite, hone⟩,
      (c.means, c.inverseStdVariances), hbins, rfl⟩

variable (F64) in
/-- The bytes start with a header and a usable matrix, whose statistics these are. -/
structure Accepted (bytes : List UInt8) (c : Cmvn F32) : Prop where
  header : arkHeader <+: bytes
  matrix : MatrixAccepted F64 bytes arkHeader.length c

theorem fromArkBytes_decides (bytes : List UInt8) :
    Decides (fromArkBytes F64 bytes : Parser (Cmvn F32)) (Accepted F64 bytes) := by
  have hbody (r : ℕ × ℤ × ℤ)
      (hr : arkHeader <+: bytes ∧ r = (arkHeader.length, 2, (numMelBins : ℤ) + 1)) :
      Decides (matrixStats F64 bytes r.1 r.2.1 r.2.2 : Parser (Cmvn F32))
        (MatrixAccepted F64 bytes r.1) := by
    obtain ⟨-, rfl⟩ := hr
    exact matrixStats_decides bytes arkHeader.length
  refine ((header_decides bytes).bind hbody).congr fun c => ?_
  constructor
  · rintro ⟨_, ⟨hheader, rfl⟩, hmatrix⟩
    exact ⟨hheader, hmatrix⟩
  · rintro ⟨hheader, hmatrix⟩
    exact ⟨_, ⟨hheader, rfl⟩, hmatrix⟩

omit [FloatMath F64] in
theorem matrixValue_append {bytes : List UInt8} {p j : ℕ} (h : p + 8 * j + 8 ≤ bytes.length)
    (extra : List UInt8) :
    matrixValue (bytes ++ extra) p j = (matrixValue bytes p j : F64) := by
  simp only [matrixValue]
  congr 1
  funext k
  rw [List.getD_eq_getElem?_getD, List.getD_eq_getElem?_getD,
    List.getElem?_append_left (by omega)]

private theorem value_le {p j m n : ℕ} (hn : p + 2 * (m + 1) * 8 ≤ n) (hj : j < 2 * (m + 1)) :
    p + 8 * j + 8 ≤ n := by omega

/-- What follows the matrix does not matter. -/
theorem MatrixAccepted.append {bytes : List UInt8} {p : ℕ} {c : Cmvn F32}
    (h : MatrixAccepted F64 bytes p c) (extra : List UInt8) :
    MatrixAccepted F64 (bytes ++ extra) p c := by
  have hvalue (j : ℕ) (hj : j < 2 * (numMelBins + 1)) :
      matrixValue (bytes ++ extra) p j = (matrixValue bytes p j : F64) :=
    matrixValue_append (value_le h.length hj) extra
  have hcount := hvalue numMelBins (by omega)
  refine ⟨?_, ?_, ?_, fun d => ?_⟩
  · rw [List.length_append]
    exact Nat.le_add_right_of_le h.length
  · rw [hcount]
    exact h.count_finite
  · rw [hcount]
    exact h.one_le_count
  · rw [hcount, hvalue d (by omega), hvalue _ (by omega)]
    exact h.bins d

/-- No byte string makes the parser access a byte out of range. It returns statistics iff
the bytes start with the header and a usable matrix, and then those of the matrix, whatever
follows it; on all other byte strings it returns `InvalidCmvn`. -/
theorem fromArkBytes_iff (bytes : List UInt8) :
    (fromArkBytes F64 bytes : Parser (Cmvn F32)).run ≠ none ∧
    (∀ c : Cmvn F32, (fromArkBytes F64 bytes).run = some (.ok c) ↔ Accepted F64 bytes c) ∧
    ((∀ c : Cmvn F32, ¬ Accepted F64 bytes c) →
      ∃ e : InvalidCmvn, (fromArkBytes F64 bytes : Parser (Cmvn F32)).run = some (.error e)) ∧
    ∀ (c : Cmvn F32) (extra : List UInt8), (fromArkBytes F64 bytes).run = some (.ok c) →
      (fromArkBytes F64 (bytes ++ extra)).run = some (.ok c) := by
  have h : Decides (fromArkBytes F64 bytes : Parser (Cmvn F32)) (Accepted F64 bytes) :=
    fromArkBytes_decides bytes
  refine ⟨h.ne_none, h.run_eq_ok, h.fails_of, fun c extra hok => ?_⟩
  obtain ⟨hheader, hmatrix⟩ := (h.run_eq_ok c).mp hok
  apply ((fromArkBytes_decides (bytes ++ extra)).run_eq_ok c).mpr
  exact ⟨hheader.trans (List.prefix_append bytes extra), hmatrix.append extra⟩

end Accepted

end Cmvn

end FireredVad
