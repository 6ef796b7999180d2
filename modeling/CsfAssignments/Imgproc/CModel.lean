import Mathlib.Data.BitVec
/-!
# The C functions (`csf_assign02/c_imgproc_fns.c`)

| here | there |
| --- | --- |
| `Image`                  | `struct Image` (`image.h:14-18`) with its pixels |
| `Image.load`, `Image.store` | `img->data[idx]`: `none` is an index outside the pixels |
| `getR`, …, `toGrayscale` | `c_imgproc_fns.c:9-31` |
| `computeIndex`           | `:41` |
| `forLoop`                | `for (int32_t i = lo; i < hi; i++)` |
| `imgprocGrayscale`, `imgprocRgb`, `imgprocFade`, `imgprocKaleidoscope` | `:52`, `:89`, `:117`, `:190` |

`uint32_t` and `int32_t` are both `BitVec 32`; what is signed goes through `toInt`.
-/

namespace CsfAssignments.Imgproc

abbrev Pixel := BitVec 32

def getR (pixel : Pixel) : BitVec 32 := (pixel &&& 0xFF000000#32) >>> 24
def getG (pixel : Pixel) : BitVec 32 := (pixel &&& 0x00FF0000#32) >>> 16
def getB (pixel : Pixel) : BitVec 32 := (pixel &&& 0x0000FF00#32) >>> 8
def getA (pixel : Pixel) : BitVec 32 := pixel &&& 0x000000FF#32

def makePixel (r g b a : BitVec 32) : Pixel := (r <<< 24) ||| (g <<< 16) ||| (b <<< 8) ||| a

/-- The weighted mean that `to_grayscale` (`:25`) gives every component. -/
def luma (pixel : Pixel) : BitVec 32 := (79 * getR pixel + 128 * getG pixel + 49 * getB pixel) / 256

def toGrayscale (pixel : Pixel) : Pixel :=
  makePixel (luma pixel) (luma pixel) (luma pixel) (getA pixel)

/-- `:34`, in `int64_t`. -/
def gradient (x max : BitVec 64) : BitVec 64 :=
  let square := (2000000000#64 * x).sdiv (1000000#64 * max) - 1000#64
  1000000#64 - square * square

structure Image where
  width : BitVec 32
  height : BitVec 32
  data : List Pixel

namespace Image

def load (img : Image) (idx : BitVec 32) : Option Pixel :=
  if idx.toInt < 0 then none else img.data[idx.toNat]?

def store (img : Image) (idx : BitVec 32) (v : Pixel) : Option Image :=
  if idx.toInt < 0 ∨ img.data.length ≤ idx.toNat then none
  else some { img with data := img.data.set idx.toNat v }

end Image

def computeIndex (img : Image) (col row : BitVec 32) : BitVec 32 := row * img.width + col

def forLoop {σ : Type} {w : Nat} (lo hi : BitVec w) (body : BitVec w → σ → Option σ) (s : σ) :
    Option σ :=
  (List.range (hi.toInt - lo.toInt).toNat).foldlM (fun s k => body (lo + BitVec.ofNat w k) s) s

/-- The body of the loops of `imgproc_grayscale` (`:55-58`). -/
def grayscalePixel (inputImg : Image) (i j : BitVec 32) (outputImg : Image) : Option Image := do
  let inputIndex := computeIndex inputImg j i
  let pixel ← inputImg.load inputIndex
  let outputIndex := computeIndex outputImg j i
  outputImg.store outputIndex (toGrayscale pixel)

/-- `:52`. -/
def imgprocGrayscale (inputImg outputImg : Image) : Option Image :=
  forLoop 0 inputImg.height
    (fun i => forLoop 0 inputImg.width fun j => grayscalePixel inputImg i j) outputImg

/-- The body of the loops of `imgproc_rgb` (`:91-104`). -/
def rgbPixel (inputImg : Image) (i j : BitVec 32) (outputImg : Image) : Option Image := do
  let pixel ← inputImg.load (computeIndex inputImg j i)
  let copyIndex := computeIndex outputImg j i
  let redIndex := computeIndex outputImg (inputImg.width + j) i
  let greenIndex := computeIndex outputImg j (inputImg.height + i)
  let blueIndex := computeIndex outputImg (inputImg.width + j) (inputImg.height + i)
  let outputImg ← outputImg.store copyIndex pixel
  let outputImg ← outputImg.store redIndex (makePixel (getR pixel) 0 0 (getA pixel))
  let outputImg ← outputImg.store greenIndex (makePixel 0 (getG pixel) 0 (getA pixel))
  outputImg.store blueIndex (makePixel 0 0 (getB pixel) (getA pixel))

/-- `:89`. -/
def imgprocRgb (inputImg outputImg : Image) : Option Image :=
  forLoop 0 inputImg.height (fun i => forLoop 0 inputImg.width fun j => rgbPixel inputImg i j)
    outputImg

/-- A component faded, then clamped (`:135-143`). -/
def fadeComponent (rowFade colFade : BitVec 64) (c : BitVec 32) : BitVec 32 :=
  let faded := ((rowFade * colFade * c.zeroExtend 64).sdiv 1000000000000#64).truncate 32
  if 255#32 < faded then 255#32 else faded

/-- The body of the inner loop of `imgproc_fade` (`:127-144`). -/
def fadeOnePixel (inputImg : Image) (rowFade colFade row col : BitVec 64) (outputImg : Image) :
    Option Image := do
  let idx := computeIndex inputImg (col.truncate 32) (row.truncate 32)
  let pixel ← inputImg.load idx
  outputImg.store idx (makePixel (fadeComponent rowFade colFade (getR pixel))
    (fadeComponent rowFade colFade (getG pixel)) (fadeComponent rowFade colFade (getB pixel))
    (getA pixel))

/-- `:117`. The loops count in `int64_t`. -/
def imgprocFade (inputImg outputImg : Image) : Option Image :=
  let width := inputImg.width.signExtend 64
  let height := inputImg.height.signExtend 64
  forLoop 0 height (fun row =>
    let rowFade := gradient row height
    forLoop 0 width fun col =>
      let colFade := gradient col width
      fadeOnePixel inputImg rowFade colFade row col) outputImg

/-- The body of the first loops of `imgproc_kaleidoscope` (`:204-209`). -/
def copyWedge (inputImg : Image) (i j : BitVec 32) (outputImg : Image) : Option Image := do
  let idxOriginal := computeIndex inputImg j i
  let idxCopy := computeIndex outputImg j i
  let idxReflect := computeIndex outputImg i j
  let outputImg ← outputImg.store idxCopy (← inputImg.load idxOriginal)
  outputImg.store idxReflect (← inputImg.load idxOriginal)

/-- `output_img->data[idx] = output_img->data[idx_original]`. -/
def copyPixel (outputImg : Image) (idxOriginal idx : BitVec 32) : Option Image := do
  outputImg.store idx (← outputImg.load idxOriginal)

/-- The body of the second loops (`:215-227`). -/
def mirrorQuadrant (even : Bool) (width height i j : BitVec 32) (outputImg : Image) :
    Option Image := do
  let idxOriginal := computeIndex outputImg j i
  let outputImg ← if even || 0 < j.toInt then
      copyPixel outputImg idxOriginal (computeIndex outputImg (width - 1 - j) i)
    else pure outputImg
  let outputImg ← if even || 0 < i.toInt then
      copyPixel outputImg idxOriginal (computeIndex outputImg j (height - 1 - i))
    else pure outputImg
  if even || (0 < i.toInt && 0 < j.toInt) then
    copyPixel outputImg idxOriginal (computeIndex outputImg (width - 1 - j) (height - 1 - i))
  else pure outputImg

/-- `:190`. -/
def imgprocKaleidoscope (inputImg outputImg : Image) : Option (BitVec 32 × Image) :=
  let width := inputImg.width
  let height := inputImg.height
  if width ≠ height then some (0, outputImg)
  else do
    let even : Bool := width &&& 1 = 0
    let width := if even then width else width + 1
    let height := if even then height else height + 1
    let half := width.sshiftRight 1
    let outputImg ← forLoop 0 half (fun i => forLoop i half fun j => copyWedge inputImg i j) outputImg
    let outputImg ← forLoop 0 half
      (fun i => forLoop 0 half fun j => mirrorQuadrant even width height i j) outputImg
    return (1, outputImg)

end CsfAssignments.Imgproc
