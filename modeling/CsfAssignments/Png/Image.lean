import CsfAssignments.Imgproc.OutputImage
import CsfAssignments.Png.Model
/-!
# Images in files (`csf_assign02/image.c`)

| here | there |
| --- | --- |
| `words`, `leBytes` | a `uint32_t` in the memory of a little-endian machine |
| `byteswap`         | `image.c:13` |
| `imgRead`          | `img_read` (`:39`) |
| `imgWrite`         | `img_write` (`:110`) |

`is_little_endian` is 1 on the machine of the assembly.
-/

namespace CsfAssignments.Png

open Imgproc

def leBytes (val : BitVec 32) : Bytes :=
  [val.truncate 8, (val >>> 8).truncate 8, (val >>> 16).truncate 8, (val >>> 24).truncate 8]

/-- The words of a buffer. -/
def words : Bytes → List (BitVec 32)
  | b0 :: b1 :: b2 :: b3 :: bytes => getUl [b3, b2, b1, b0] :: words bytes
  | _ => []

/-- `image.c:13`: `p[0] << 24 | p[1] << 16 | p[2] << 8 | p[3]`. -/
def byteswap (val : BitVec 32) : BitVec 32 := getUl (leBytes val)

/-- `image.h:5-9`. -/
def imgErrCouldNotOpen : BitVec 32 := -1#32
def imgErrNotTruecolor : BitVec 32 := -2#32

/-- `pixel_data_raw[idx]`. -/
def rawAt (raw : Bytes) (idx : BitVec 32) : Option Byte :=
  if idx.toInt < 0 then none else raw[idx.toNat]?

/-- The body of the loop for RGB data (`:73-80`). -/
def expandPixel (raw : Bytes) (i : BitVec 32) (pixelData : Image) : Option Image := do
  let r ← rawAt raw (i * 3#32 + 0#32)
  let g ← rawAt raw (i * 3#32 + 1#32)
  let b ← rawAt raw (i * 3#32 + 2#32)
  pixelData.store i (getUl [r, g, b, 255])

/-- The body of the loop for RGBA data (`:94-96`). -/
def swapPixel (i : BitVec 32) (pixelData : Image) : Option Image := do
  pixelData.store i (byteswap (← pixelData.load i))

/-- `:39`. The results of its two calls of `malloc` are not checked: no byte can be put at `NULL`. -/
def imgRead (Z : Zlib) (env : Env) (file : Option Bytes) (img : Image) : Option (BitVec 32 × Image) :=
  match pngOpenFileRead Z env file with
  | .error _ => some (imgErrCouldNotOpen, img)
  | .ok (png, file) =>
    if ¬(png.colorType = pngTruecolor ∧ pngGetBpp png = 3) ∧
        ¬(png.colorType = pngTruecolorAlpha ∧ pngGetBpp png = 4) then
      some (imgErrNotTruecolor, img)
    else
      let numPixels := png.width * png.height
      let pixelData := (env.malloc 0 (numPixels.signExtend 64 * 4#64).toNat).getD []
      if png.colorType = pngTruecolor then do
        let raw := (env.malloc 1 ((numPixels * 3#32).signExtend 64).toNat).getD []
        let (result, raw) ← pngGetData Z env png 2 file raw
        if result ≠ .noError then return (imgErrMallocFailed, img)
        else
          let pixels ← forLoop 0#32 numPixels (expandPixel raw) ⟨png.width, png.height, words pixelData⟩
          return (imgSuccess, pixels)
      else do
        let (result, pixelData) ← pngGetData Z env png 1 file pixelData
        if result ≠ .noError then return (imgErrMallocFailed, img)
        else
          let pixels ← forLoop 0#32 numPixels swapPixel ⟨png.width, png.height, words pixelData⟩
          return (imgSuccess, pixels)

/-- The body of the loop of `img_write` (`:137-139`). -/
def swapInto (img : Image) (i : BitVec 32) (dataToWrite : Image) : Option Image := do
  dataToWrite.store i (byteswap (← img.load i))

/-- `:110`, to a file that can be opened: the file. -/
def imgWrite (Z : Zlib) (env : Env) (img : Image) : Option (BitVec 32 × Bytes) :=
  let numPixels := img.width * img.height
  match env.malloc 0 (numPixels.signExtend 64 * 4#64).toNat with
  | none => some (imgErrMallocFailed, [])
  | some dataToWrite => do
    let swapped ← forLoop 0#32 numPixels (swapInto img) ⟨img.width, img.height, words dataToWrite⟩
    let file ← pngSetData Z env 1 img.width img.height 8 pngTruecolorAlpha
      (swapped.data.flatMap leBytes)
    return (imgSuccess, file)

end CsfAssignments.Png
