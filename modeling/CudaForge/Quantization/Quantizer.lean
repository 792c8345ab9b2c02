import CudaForge.Library.BroadcastTensor
import CudaForge.Library.NearestInteger
import CudaForge.Library.Numerals

/-!
The quantization toolkit in exact arithmetic: scales from absolute maxima, INT8 conversion and the
packing of INT4 weights into bytes. `none` stands for a call that raises.
-/
namespace CudaForge.Quantization
open NearestInteger Numerals

structure QuantizationScale (𝕜 : Type*) where
  scale : Tensor 𝕜
  zeroPoint : Option (Tensor 𝕜) := none
  smoothScale : Option (Tensor 𝕜) := none

section Conversion
variable {𝕜 : Type*} [Field 𝕜] [LinearOrder 𝕜] [FloorRing 𝕜]

/-- The floor of the scales. -/
def scaleMin : 𝕜 := 1 / 10 ^ 8

def qmax (numBits : ℕ) (symmetric : Bool) : 𝕜 :=
  if symmetric then 2 ^ (numBits - 1) - 1 else 2 ^ numBits - 1

def computeMinmaxScale (tensor : Tensor 𝕜) (numBits : ℕ) (axis : Option ℤ) (symmetric : Bool) :
    Option (QuantizationScale 𝕜) :=
  ((tensor.map fun x => |x|).amax axis).map fun maxVal =>
    { scale := maxVal.map fun v => max (v / qmax numBits symmetric) scaleMin }

/-- `torch.clamp(torch.round(x), lo, hi)` -/
def roundClamp (lo hi : ℤ) (x : 𝕜) : ℤ := clamp lo hi (roundHalfEven x)

def quantizeInt8 (tensor scale : Tensor 𝕜) (symmetric : Bool) : Option (Tensor ℤ) :=
  (tensor.zipWith (· / ·) scale).map fun scaled =>
    scaled.map (if symmetric then roundClamp (-128) 127 else roundClamp 0 255)

def dequantizeInt8 (qtensor : Tensor ℤ) (scale : Tensor 𝕜) : Option (Tensor 𝕜) :=
  qtensor.zipWith (fun (q : ℤ) (s : 𝕜) => q * s) scale

end Conversion

section Bytes

/-- `x[:, start::2]` -/
def everySecond {α : Type*} (start : ℕ) (x : Tensor α) : Tensor α where
  shape := x.shape.modify 1 fun n => (n + 1 - start) / 2
  element index := x.element (index.modify 1 fun j => start + 2 * j)

/-- The `int8` codes moved to `0 .. 15`, and the even and the odd columns or-ed into bytes. -/
def packCodes (qWeight : Tensor ℤ) : Option (Tensor (BitVec 8)) :=
  let qU4 := qWeight.map fun q => BitVec.ofInt 8 q + 8#8
  let lowNibble := (everySecond 0 qU4).map fun b => b &&& 0x0F#8
  let highNibble := (everySecond 1 qU4).map fun b => (b &&& 0x0F#8) <<< 4
  lowNibble.zipWith (· ||| ·) highNibble

/-- The nibbles of the bytes as `int8` codes, low and high in turn. -/
def unpackCodes (packedBytes : Tensor (BitVec 8)) : Option (Tensor ℤ) :=
  match packedBytes.shape with
  | [M, nPacked] =>
    let lowNibbles := packedBytes.map fun (b : BitVec 8) => ((b &&& 0x0F#8) - 8#8).toInt
    let highNibbles := packedBytes.map fun (b : BitVec 8) => (((b >>> 4) &&& 0x0F#8) - 8#8).toInt
    some {
      shape := [M, nPacked * 2]
      element := fun index =>
        let half := index.modify 1 (· / 2)
        if index.getD 1 0 % 2 = 0 then lowNibbles.element half else highNibbles.element half }
  | _ => none

variable {𝕜 : Type*} [Field 𝕜] [LinearOrder 𝕜] [FloorRing 𝕜]

/-- The packed bytes, and the scale in half precision. -/
def packInt4Gemm (toFloat16 : 𝕜 → 𝕜) (weightTensor scale : Tensor 𝕜) :
    Option (Tensor (BitVec 8) × Tensor 𝕜) :=
  match weightTensor.shape with
  | [_, N] =>
    if N % 2 = 0 then
      (weightTensor.zipWith (· / ·) scale).bind fun scaled =>
        (packCodes (scaled.map (roundClamp (-8) 7))).map fun packedBytes =>
          (packedBytes, scale.map toFloat16)
    else none
  | _ => none

def unpackInt4Gemm (packedBytes : Tensor (BitVec 8)) (scale : Tensor 𝕜) : Option (Tensor 𝕜) :=
  (unpackCodes packedBytes).bind fun unpacked =>
    unpacked.zipWith (fun (q : ℤ) (s : 𝕜) => q * s) scale

end Bytes
end CudaForge.Quantization
