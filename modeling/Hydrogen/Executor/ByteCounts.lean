import Hydrogen.Executor.Hop

/-!
# Byte counts of a moving average

The size of a request and of its reply is computed again in every program on the way: in `msg_moving_avg`, in
`Client::getResult`, in `Resource::dispatch`, in `Scheduler::runJob` and in `connection::handle_read`. Each of them
computes it with `size_t` and stores it in an `int`. All of these counts are the numbers they stand for if and only if
the whole request is below 2^31 bytes (`exactCounts_iff`).
-/

namespace Hydrogen

/-! ## The counts -/

/-- `int size = sizeBytes + sizeof(msg_t)` of `getResult`. -/
def getResultSize (sizeBytes : BitVec 32) : BitVec 32 :=
  (sizeBytes.signExtend 64 + BitVec.ofNat 64 sizeofMsg).setWidth 32

/-- `getResult` reads so many bytes. -/
theorem getResult_eq (out : List UInt8) (sizeBytes : BitVec 32) (cs : List Chunk) :
    getResult out sizeBytes cs = (do
      let r ← clientRead ((getResultSize sizeBytes).signExtend 64) cs
      let out ← Exec.memcpy out (Msg.ofBytes r.1).data (Msg.ofBytes r.1).dataBytes
      pure (out, r.2)) :=
  rfl

/-- **Every count is the number it stands for**, for a moving average of `n` elements whose header is at the front of the
buffer of a server. -/
structure ExactCounts (n : BitVec 32) (width : BitVec 64) (dataIn : List (BitVec 32)) (rest : List UInt8) : Prop where
  dataBytes : (msgMovingAvg n width dataIn).dataBytes.toNat = 4 * n.toNat + 8
  totalBytes : (msgMovingAvg n width dataIn).totalBytes.toNat = sizeofMsg + (4 * n.toNat + 8)
  expDataSizeBytes : (msgMovingAvg n width dataIn).expDataSizeBytes.toNat = 4 * n.toNat
  getResult : ((getResultSize ((n.signExtend 64 * 4).setWidth 32)).signExtend 64).toNat = 4 * n.toNat + sizeofMsg
  dispatch : (dispatchSize (msgMovingAvg n width dataIn)).toNat = sizeofMsg + 4 * n.toNat
  runJob : (runJobSize (msgMovingAvg n width dataIn)).toNat = sizeofMsg + 4 * n.toNat
  expectedBytes : (expectedBytes ((msgMovingAvg n width dataIn).header ++ rest)).toNat = sizeofMsg + (4 * n.toNat + 8)
  size : ∀ bytesTransferred < sizeofMsg + (4 * n.toNat + 8),
    missingBytes bytesTransferred ((msgMovingAvg n width dataIn).header ++ rest) =
      sizeofMsg + (4 * n.toNat + 8) - bytesTransferred

/-! ## Conversions -/

/-- A non-negative `int`. -/
theorem toNat_lt_of_toInt {n : BitVec 32} (hn : 0 ≤ n.toInt) : n.toNat < 2 ^ 31 := by
  have hlt := n.isLt
  rw [BitVec.toInt_eq_toNat_cond] at hn
  split at hn <;> omega

/-- What `size_t` makes of an `int` is below 2^31 or, for a negative one, in the last 2^31 numbers. -/
theorem toNat_signExtend_range (x : BitVec 32) :
    (x.signExtend 64).toNat < 2 ^ 31 ∨ 2 ^ 64 - 2 ^ 31 ≤ (x.signExtend 64).toNat := by
  have hint : (x.signExtend 64).toInt = x.toInt := BitVec.toInt_signExtend_of_le (by decide)
  have hlow := BitVec.le_toInt x
  have hhigh := BitVec.toInt_lt (x := x)
  rw [BitVec.toInt_eq_toNat_cond] at hint
  split at hint <;> omega

section Counts

variable {n : BitVec 32} (width : BitVec 64) (dataIn : List (BitVec 32)) (rest : List UInt8)

theorem toNat_size_t (hn : 0 ≤ n.toInt) : (n.signExtend 64).toNat = n.toNat := by
  have hlt := toNat_lt_of_toInt hn
  have hint := toNat_int hlt
  rwa [BitVec.ofNat_toNat, BitVec.setWidth_eq] at hint

/-- The product is taken in `size_t`, where it does not overflow. -/
theorem toNat_elements (hn : 0 ≤ n.toInt) : (n.signExtend 64 * 4).toNat = 4 * n.toNat := by
  have hlt := toNat_lt_of_toInt hn
  rw [BitVec.toNat_mul, toNat_size_t hn]
  show n.toNat * 4 % 2 ^ 64 = _
  omega

theorem toNat_movingAvg_dataBytes (hn : 0 ≤ n.toInt) (h : 4 * n.toNat + 8 < 2 ^ 31) :
    (msgMovingAvg n width dataIn).dataBytes.toNat = 4 * n.toNat + 8 := by
  have hsum : (n.signExtend 64 * 4 + 8).toNat = 4 * n.toNat + 8 := by
    rw [BitVec.toNat_add, toNat_elements hn]
    show (4 * n.toNat + 8) % 2 ^ 64 = _
    omega
  show (((n.signExtend 64 * 4 + 8).setWidth 32).signExtend 64).toNat = _
  rw [toInt_of_lt (by omega), hsum]

/-- The total of a request below 2^31 bytes. -/
theorem toNat_movingAvg_totalBytes (hn : 0 ≤ n.toInt) (h : sizeofMsg + (4 * n.toNat + 8) < 2 ^ 31) :
    (msgMovingAvg n width dataIn).totalBytes.toNat = sizeofMsg + (4 * n.toNat + 8) := by
  have hdata := toNat_movingAvg_dataBytes width dataIn hn (by omega)
  show (((BitVec.ofNat 64 sizeofMsg + (msgMovingAvg n width dataIn).dataBytes).setWidth 32).signExtend 64).toNat = _
  rw [toInt_sizeofMsg_add (by omega), hdata]

theorem toNat_dispatchSize (hn : 0 ≤ n.toInt) (h : sizeofMsg + 4 * n.toNat < 2 ^ 31) :
    (dispatchSize (msgMovingAvg n width dataIn)).toNat = sizeofMsg + 4 * n.toNat := by
  have helems : (4 * (msgMovingAvg n width dataIn).dataSize).toNat = 4 * n.toNat := by
    show (4 * n.signExtend 64).toNat = _
    rw [BitVec.mul_comm, toNat_elements hn]
  rw [dispatchSize, toInt_sizeofMsg_add (by omega), helems]

theorem toNat_getResultSize (hn : 0 ≤ n.toInt) (h : sizeofMsg + 4 * n.toNat < 2 ^ 31) :
    ((getResultSize ((n.signExtend 64 * 4).setWidth 32)).signExtend 64).toNat = 4 * n.toNat + sizeofMsg := by
  have helems := toNat_elements hn
  have hargument : ((n.signExtend 64 * 4).setWidth 32).signExtend 64 = n.signExtend 64 * 4 := toInt_of_lt (by omega)
  rw [getResultSize, hargument, BitVec.add_comm, toInt_sizeofMsg_add (by omega), helems, Nat.add_comm]

/-- Below 2^31 bytes every count is exact. -/
theorem exactCounts_of_lt (hn : 0 ≤ n.toInt) (h : sizeofMsg + (4 * n.toNat + 8) < 2 ^ 31) :
    ExactCounts n width dataIn rest := by
  have helems := toNat_elements hn
  have htotal := toNat_movingAvg_totalBytes width dataIn hn h
  have hexpected : (expectedBytes ((msgMovingAvg n width dataIn).header ++ rest)).toNat =
      sizeofMsg + (4 * n.toNat + 8) := by
    rw [expectedBytes, totalBytesOf_header, toInt_of_lt (by omega), htotal]
  refine ⟨toNat_movingAvg_dataBytes width dataIn hn (by omega), htotal, helems,
    toNat_getResultSize hn (by omega), toNat_dispatchSize width dataIn hn (by omega), ?_, hexpected, ?_⟩
  · have hexp : (msgMovingAvg n width dataIn).expDataSizeBytes.toNat = 4 * n.toNat := helems
    rw [runJobSize, toInt_sizeofMsg_add (by omega), hexp]
  · intro bytesTransferred hlt
    have hsub : (expectedBytes ((msgMovingAvg n width dataIn).header ++ rest) - BitVec.ofNat 64 bytesTransferred).toNat =
        sizeofMsg + (4 * n.toNat + 8) - bytesTransferred := by
      have hmod : (BitVec.ofNat 64 bytesTransferred).toNat = bytesTransferred := by
        rw [BitVec.toNat_ofNat, Nat.mod_eq_of_lt (by omega)]
      rw [BitVec.toNat_sub_of_le (by rw [BitVec.le_def, hmod, hexpected]; omega), hexpected, hmod]
    rw [missingBytes, toInt_of_lt (by omega), hsub]

/-- **The byte counts of a moving average are exact** if and only if its request is below 2^31 bytes. -/
theorem exactCounts_iff (hn : 0 ≤ n.toInt) : ExactCounts n width dataIn rest ↔ 4 * n.toNat + 77 < 2 ^ 31 := by
  have hlt := toNat_lt_of_toInt hn
  constructor
  · intro h
    have htotal : (msgMovingAvg n width dataIn).totalBytes.toNat = 69 + (4 * n.toNat + 8) := h.totalBytes
    rcases toNat_signExtend_range ((BitVec.ofNat 64 sizeofMsg +
      (msgMovingAvg n width dataIn).dataBytes).setWidth 32) with hsmall | hlarge
    · have hsmall : (msgMovingAvg n width dataIn).totalBytes.toNat < 2 ^ 31 := hsmall
      omega
    · have hlarge : 2 ^ 64 - 2 ^ 31 ≤ (msgMovingAvg n width dataIn).totalBytes.toNat := hlarge
      omega
  · intro h
    exact exactCounts_of_lt width dataIn rest hn (by show 69 + (4 * n.toNat + 8) < 2 ^ 31; omega)

end Counts

theorem exactCounts_three : ExactCounts 3 2 [1, 2, 3] [] := (exactCounts_iff 2 [1, 2, 3] [] (by decide)).mpr (by decide)

/-- Of 2^29 elements, two gigabytes, the bytes of the data come out negative. -/
theorem dataBytes_overflow : ¬∀ (n : BitVec 32) (width : BitVec 64) (dataIn : List (BitVec 32)) (rest : List UInt8),
    0 ≤ n.toInt → dataIn.length = n.toNat → ExactCounts n width dataIn rest := by
  intro h
  have hexact := h 0x20000000 3 (List.replicate (2 ^ 29) 0) [] (by decide) List.length_replicate
  have hcode : (msgMovingAvg 0x20000000 3 (List.replicate (2 ^ 29) 0)).dataBytes = 0xffffffff80000008 := by
    show (((BitVec.signExtend 64 (0x20000000 : BitVec 32) * 4 + 8).setWidth 32).signExtend 64) = _
    decide
  have hclaim := hexact.dataBytes
  rw [hcode] at hclaim
  exact absurd hclaim (by decide)

end Hydrogen
