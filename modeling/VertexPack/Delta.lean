/-!
Byte deltas. A column of bytes is stored as the chain of its wrapping
differences, each folded so that small steps either way are small numbers.
-/
namespace VertexPack.Delta

/-- Folds a wrapping difference: 0, -1, 1, -2, 2 become 0, 1, 2, 3, 4. -/
def zigzag (d : UInt8) : UInt8 := (-(d >>> 7)) ^^^ (d <<< 1)

def unzigzag (v : UInt8) : UInt8 := (v >>> 1) ^^^ (-(v &&& 1))

/-- The folded step from each byte to the next; the first step starts at `p`. -/
def encode (p : UInt8) : List UInt8 → List UInt8
  | [] => []
  | v :: vs => zigzag (v - p) :: encode v vs

def decode (p : UInt8) : List UInt8 → List UInt8
  | [] => []
  | d :: ds => (p + unzigzag d) :: decode (p + unzigzag d) ds

@[simp] theorem encode_length (p : UInt8) (vs : List UInt8) : (encode p vs).length = vs.length := by
  induction vs generalizing p with
  | nil => rfl
  | cons v vs ih => simp [encode, ih]

@[simp] theorem decode_length (p : UInt8) (ds : List UInt8) : (decode p ds).length = ds.length := by
  induction ds generalizing p with
  | nil => rfl
  | cons d ds ih => simp [decode, ih]

theorem unzigzag_zigzag (d : UInt8) : unzigzag (zigzag d) = d := by
  have h : ∀ i : Fin 256, unzigzag (zigzag (UInt8.ofNat i)) = UInt8.ofNat i := by decide +kernel
  simpa using h ⟨d.toNat, d.toNat_lt⟩

theorem zigzag_unzigzag (d : UInt8) : zigzag (unzigzag d) = d := by
  have h : ∀ i : Fin 256, zigzag (unzigzag (UInt8.ofNat i)) = UInt8.ofNat i := by decide +kernel
  simpa using h ⟨d.toNat, d.toNat_lt⟩

theorem decode_encode (p : UInt8) (vs : List UInt8) : decode p (encode p vs) = vs := by
  induction vs generalizing p with
  | nil => rfl
  | cons v vs ih =>
    have h : p + (v - p) = v := by
      rw [UInt8.add_comm]
      exact UInt8.sub_add_cancel v p
    simp [encode, decode, unzigzag_zigzag, h, ih]

theorem encode_decode (p : UInt8) (ds : List UInt8) : encode p (decode p ds) = ds := by
  induction ds generalizing p with
  | nil => rfl
  | cons d ds ih =>
    have h : p + unzigzag d - p = unzigzag d := by
      rw [UInt8.add_comm]
      exact UInt8.add_sub_cancel _ p
    simp [encode, decode, zigzag_unzigzag, h, ih]

end VertexPack.Delta
