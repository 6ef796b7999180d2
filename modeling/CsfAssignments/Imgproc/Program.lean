import CsfAssignments.Imgproc.EightFold
import CsfAssignments.Imgproc.FadeRange
import CsfAssignments.Imgproc.Grayscale
import CsfAssignments.Png.Write
/-!
# The image program (`c_imgproc_main.c`)

| here | there |
| --- | --- |
| `Functions` | the functions of `imgproc.h`: the program is linked with the C or the assembly ones |
| `applyRgb`, …, `transformations` | `:14-27`, `:137-168` |
| `imgprocMain` | `main` (`:72`) |

`imgprocMain` gives the exit code and the files. `transformed` says what each transformation is for, on
pictures of any size; the program takes a PNG file of a picture to a PNG file of the transformed picture
(`imgprocMain_correct`).
-/

namespace CsfAssignments.Imgproc

open Png

structure Functions where
  rgb : Image → Image → Option Image
  grayscale : Image → Image → Option Image
  fade : Image → Image → Option Image
  kaleidoscope : Image → Image → Option (BitVec 32 × Image)

/-- `c_imgproc_fns.c`. -/
def cFunctions : Functions := ⟨imgprocRgb, imgprocGrayscale, imgprocFade, imgprocKaleidoscope⟩

section
variable (fns : Functions) (inputImg outputImg : Image)

def applyRgb : Option (BitVec 32 × Image) := (fns.rgb inputImg outputImg).map (1#32, ·)
def applyGrayscale : Option (BitVec 32 × Image) := (fns.grayscale inputImg outputImg).map (1#32, ·)
def applyFade : Option (BitVec 32 × Image) := (fns.fade inputImg outputImg).map (1#32, ·)
def applyKaleidoscope : Option (BitVec 32 × Image) := fns.kaleidoscope inputImg outputImg

end

/-- `s_transformations`. -/
def transformations (fns : Functions) : List (String × (Image → Image → Option (BitVec 32 × Image))) :=
  [("rgb", applyRgb fns), ("grayscale", applyGrayscale fns), ("fade", applyFade fns),
    ("kaleidoscope", applyKaleidoscope fns)]

/-- What `malloc` answers: to `main`, to `img_read`, to `create_output_img` and to `img_write`. -/
structure Memory where
  inputImg : Option Image
  read : Env
  output : Nat → BitVec 64 → Option (List Pixel)
  write : Env

/-- `:72`. What can be opened for writing is `writable`. -/
def imgprocMain (Z : Zlib) (fns : Functions) (mem : Memory) (writable : String → Bool)
    (files : String → Option Bytes) (argv : List String) : Option (Nat × (String → Option Bytes)) :=
  match argv with
  | _ :: transformation :: inputFilename :: outputFilename :: _ =>
    match mem.inputImg with
    | none => some (1, files)
    | some inputImg => do
      let (status, inputImg) ← imgRead Z mem.read (files inputFilename) inputImg
      if status ≠ imgSuccess then return (1, files)
      else
        match ← createOutputImg mem.output inputImg transformation with
        | none => return (1, files)
        | some outputImg =>
          match (transformations fns).lookup transformation with
          | none => return (1, files)
          | some apply => do
            let (success, outputImg) ← apply inputImg outputImg
            if success = 0 then return (1, files)
            else if !writable outputFilename then return (1, files)
            else do
              let (status, file) ← imgWrite Z mem.write outputImg
              return (if status = imgSuccess then 0 else 1,
                Function.update files outputFilename (some file))
  | _ => some (1, files)

/-! ## The purpose -/

/-- What the picture `pix` of `w` by `h` pixels becomes. There is no kaleidoscope of a picture that is not
square. -/
def transformed (transformation : String) (w h : Nat) (pix : Nat → Pixel) : Option Image :=
  if transformation = "rgb" then
    some (picture (2 * w) (2 * h) fun x => tile w h pix (x / (2 * w)) (x % (2 * w)))
  else if transformation = "grayscale" then some (picture w h fun x => toGrayscale (pix x))
  else if transformation = "fade" then
    some (picture w h fun x => fadePixel (gradient (word (x / w)) (word h))
      (gradient (word (x % w)) (word w)) (pix x))
  else if transformation = "kaleidoscope" then
    if w = h then some (picture w h (kaleidoSpec w pix)) else none
  else none

/-- The size of the output image. -/
def outSize (transformation : String) (n : Nat) : Nat := if transformation = "rgb" then 2 * n else n

/-! ## The output image -/

section
variable {malloc : Nat → BitVec 64 → Option (List Pixel)} {w h : Nat} {pix : Nat → Pixel}

theorem store_range {n x : Nat} (hn : n < 2 ^ 31) (hx : x < n) (img : Image) (v : Pixel) :
    ({ img with data := (List.range n).map pix } : Image).store (BitVec.ofNat 32 x) v =
      some { img with data := (List.range n).map (Function.update pix x v) } := by
  have h : (picture n 1 pix).store (BitVec.ofNat 32 x) v = _ := store_picture (by omega) (by omega) v
  simp only [Image.store, picture, Nat.mul_one] at h ⊢
  split at h
  · cases h
  · rename_i hin
    rw [if_neg hin]
    simpa using h

/-- `img_init`: every pixel is black. -/
theorem imgInit_picture (hexact : Exact malloc) (hsome : ∀ k n, (malloc k n).isSome) (hn : w * h < 2 ^ 31)
    (k : Nat) (img : Image) :
    imgInit malloc k img (BitVec.ofNat 32 w) (BitVec.ofNat 32 h) =
      some (imgSuccess, picture w h fun _ => 0x000000FF#32) := by
  obtain ⟨buffer, hbuffer⟩ := Option.isSome_iff_exists.mp
    (hsome k ((BitVec.ofNat 32 (w * h)).signExtend 64 * 4#64))
  have hlen : buffer.length = w * h := by
    rw [hexact k _ _ hbuffer, rgbaBytes_eq hn]
    omega
  have hdata : buffer = (List.range (w * h)).map fun i => buffer.getD i 0#32 := by
    apply List.ext_getElem
    · simp [hlen]
    · intro i h1 h2
      simp [h1]
  have hloop := forLoop_fold (l := 0) (b := 32) (φ := fun p => { img with data := (List.range (w * h)).map p })
    (f := fun i (buffer : Image) => buffer.store i 0x000000FF#32)
    (g := fun p x => Function.update p x 0x000000FF#32) (Nat.zero_le (w * h)) (by omega)
    (fun k _ hk p => store_range hn hk img _) fun i => buffer.getD i 0#32
  rw [Nat.sub_zero, ← List.range_eq_range', ← hdata] at hloop
  simp only [imgInit, ← BitVec.ofNat_mul, hbuffer]
  rw [show (0#32) = BitVec.ofNat 32 0 from rfl, hloop]
  have hblack : (List.range (w * h)).map ((List.range (w * h)).foldl
      (fun p x => Function.update p x 0x000000FF#32) fun i => buffer.getD i 0#32) =
      (List.range (w * h)).map fun _ => 0x000000FF#32 :=
    List.map_congr_left fun x hx => Paint.foldl_update (fun _ => 0x000000FF#32) hx
  rw [Option.bind_eq_bind, Option.bind_some, hblack]
  rfl

/-- Every pixel of the output image is black, too. -/
theorem createOutputImg_picture (hexact : Exact malloc) (hsome : ∀ k n, (malloc k n).isSome)
    (pix : Nat → Pixel) (transformation : String) (hn : outSize transformation w * outSize transformation h < 2 ^ 31) :
    createOutputImg malloc (picture w h pix) transformation = some (some
      (picture (outSize transformation w) (outSize transformation h) fun _ => 0x000000FF#32)) := by
  obtain ⟨struct, hstruct⟩ := Option.isSome_iff_exists.mp (hsome 0 16#64)
  have hsize : ∀ n : Nat, (if (decide (transformation = "rgb")) = true then BitVec.ofNat 32 n * 2#32
      else BitVec.ofNat 32 n) = BitVec.ofNat 32 (outSize transformation n) := by
    intro n
    by_cases hrgb : transformation = "rgb"
    · simp [outSize, hrgb, BitVec.ofNat_mul, BitVec.mul_comm]
    · simp [outSize, hrgb]
  have hinit := imgInit_picture hexact hsome hn 1 ⟨0#32, 0#32, []⟩
  simp only [createOutputImg, hstruct]
  simp only [picture, hsize]
  rw [hinit]
  rfl

end

/-! ## The program -/

section
variable {w h : Nat} {pix p : Nat → Pixel}

/-- The rgb picture, tile by tile. -/
theorem applyRgb_picture (hw : w < 2 ^ 31) (hh : h < 2 ^ 31) (hout : 2 * w * (2 * h) < 2 ^ 31) :
    imgprocRgb (picture w h pix) (picture (2 * w) (2 * h) p) =
      some (picture (2 * w) (2 * h) fun x => tile w h pix (x / (2 * w)) (x % (2 * w))) := by
  rw [imgprocRgb_picture hw hh hout]
  refine congrArg some (picture_congr fun x hx => ?_)
  have hpos : 0 < 2 * w := Nat.pos_of_ne_zero fun h0 => by simp [h0] at hx
  have hrow : x / (2 * w) < 2 * h := Nat.div_lt_of_lt_mul hx
  have hcol : x % (2 * w) < 2 * w := Nat.mod_lt x hpos
  have htile : (List.range (w * h)).foldl (rgbCell w h pix) p _ = _ := rgb_tiles hrow hcol
  rw [← htile, Nat.div_add_mod']

theorem applyFade_picture (hw : w < 2 ^ 31) (hh : h < 2 ^ 31) (hsize : w * h < 2 ^ 31) :
    imgprocFade (picture w h pix) (picture w h p) =
      some (picture w h fun x => fadePixel (gradient (word (x / w)) (word h))
        (gradient (word (x % w)) (word w)) (pix x)) := by
  rw [imgprocFade_picture hw hh hsize]
  exact congrArg some (picture_congr fun x hx => fade_cells hx)

theorem applyKaleidoscope_picture (hw : w < 2 ^ 31) (hh : h < 2 ^ 31) (hsize : w * h < 2 ^ 31) :
    imgprocKaleidoscope (picture w h pix) (picture w h p) =
      if w = h then some (1, picture w h (kaleidoSpec w pix)) else some (0, picture w h p) := by
  split
  · rename_i hsquare
    subst hsquare
    obtain ⟨q, hrun, hq⟩ : ∃ q, imgprocKaleidoscope (picture w w pix) (picture w w p) =
        some (1, picture w w q) ∧ ∀ r < w, ∀ c < w, q (w * r + c) = kaleidoPixel w pix r c := c_picture hsize
    rw [hrun, picture_eq hq fun r _ c hc => kaleidoSpec_index hc]
  · rename_i hsquare
    have hne : (picture w h pix).width ≠ (picture w h pix).height := by
      intro heq
      have hnat := congrArg BitVec.toNat heq
      simp only [picture, BitVec.toNat_ofNat] at hnat
      omega
    rw [imgprocKaleidoscope]
    simp only [if_pos hne]

/-- **The transformation** of the command line, on pictures. -/
theorem apply_picture (pix p : Nat → Pixel) (transformation : String) (hw : w < 2 ^ 31) (hh : h < 2 ^ 31)
    (hout : outSize transformation w * outSize transformation h < 2 ^ 31) :
    match transformed transformation w h pix with
    | some out => ∃ apply, (transformations cFunctions).lookup transformation = some apply ∧
        apply (picture w h pix) (picture (outSize transformation w) (outSize transformation h) p) =
          some (1, out)
    | none => ∀ apply, (transformations cFunctions).lookup transformation = some apply →
        ∃ img, apply (picture w h pix)
          (picture (outSize transformation w) (outSize transformation h) p) = some (0, img) := by
  by_cases hrgb : transformation = "rgb"
  · subst hrgb
    refine ⟨applyRgb cFunctions, rfl, ?_⟩
    exact congrArg (Option.map _) (applyRgb_picture hw hh hout)
  · simp only [outSize, if_neg hrgb] at hout ⊢
    by_cases hgray : transformation = "grayscale"
    · subst hgray
      refine ⟨applyGrayscale cFunctions, rfl, ?_⟩
      exact congrArg (Option.map _) (imgprocGrayscale_picture hw hh hout)
    · by_cases hfade : transformation = "fade"
      · subst hfade
        refine ⟨applyFade cFunctions, rfl, ?_⟩
        exact congrArg (Option.map _) (applyFade_picture hw hh hout)
      · by_cases hkaleido : transformation = "kaleidoscope"
        · subst hkaleido
          have hrun : imgprocKaleidoscope (picture w h pix) (picture w h p) = _ :=
            applyKaleidoscope_picture hw hh hout
          by_cases hsquare : w = h
          · rw [if_pos hsquare] at hrun
            have hspec : transformed "kaleidoscope" w h pix = some (picture w h (kaleidoSpec w pix)) :=
              if_pos hsquare
            rw [hspec]
            exact ⟨applyKaleidoscope cFunctions, rfl, hrun⟩
          · rw [if_neg hsquare] at hrun
            have hspec : transformed "kaleidoscope" w h pix = none := if_neg hsquare
            rw [hspec]
            rintro apply ⟨⟩
            exact ⟨_, hrun⟩
        · have hspec : transformed transformation w h pix = none := by
            simp only [transformed, if_neg hrgb, if_neg hgray, if_neg hfade, if_neg hkaleido]
          rw [hspec]
          intro apply hlookup
          simp only [transformations, List.lookup_cons, beq_eq_false_iff_ne.mpr hrgb,
            beq_eq_false_iff_ne.mpr hgray, beq_eq_false_iff_ne.mpr hfade,
            beq_eq_false_iff_ne.mpr hkaleido, List.lookup_nil] at hlookup
          cases hlookup

end

/-- No call of `malloc` fails. -/
structure Memory.Suffices (mem : Memory) (Z : Zlib) : Prop where
  inputImg : mem.inputImg.isSome
  read : mem.read.Allocates Z
  exact : Exact mem.output
  output : ∀ k n, (mem.output k n).isSome
  write : mem.write.Allocates Z

variable {Z : Zlib} {spec : Z.Spec} {mem : Memory} {writable : String → Bool}
  {files : String → Option Bytes} {prog transformation inputFilename outputFilename : String}
  {args : List String}

/-- **The program**: a file of a picture to a file of the transformed picture, if that fits the chunk buffer. -/
theorem imgprocMain_eq {w h : Nat} {pix : Nat → Pixel} (spec : Z.Spec) (hmem : mem.Suffices Z)
    (hread : ∀ img, imgRead Z mem.read (files inputFilename) img = some (imgSuccess, picture w h pix))
    (hopen : writable outputFilename = true) (hw : w < 2 ^ 31) (hh : h < 2 ^ 31)
    (hout : outSize transformation w * outSize transformation h < 2 ^ 31)
    (hsize : ∀ out, transformed transformation w h pix = some out →
      Writable out ∧ Z.compressBound (filteredImage out).length + 4 < 2 ^ 32) :
    imgprocMain Z cFunctions mem writable files
        (prog :: transformation :: inputFilename :: outputFilename :: args) =
      match transformed transformation w h pix with
      | some out =>
        if (Z.compress (filteredImage out)).length + 4 ≤ Z.compressBound (filteredImage out).length then
          some (0, Function.update files outputFilename (some ((fileOf Z out).render Z)))
        else none
      | none => some (1, files) := by
  obtain ⟨inputImg, hinput⟩ := Option.isSome_iff_exists.mp hmem.inputImg
  have hcreate := createOutputImg_picture hmem.exact hmem.output pix transformation hout
  have happly := apply_picture pix (fun _ => 0x000000FF#32) transformation hw hh hout
  simp only [imgprocMain, hinput, hread, Option.bind_eq_bind, Option.bind_some, ne_eq, not_true,
    if_false, hcreate]
  cases hspec : transformed transformation w h pix with
  | none =>
    simp only [hspec] at happly
    cases hlookup : (transformations cFunctions).lookup transformation with
    | none => rfl
    | some apply =>
      obtain ⟨img, hrun⟩ := happly apply hlookup
      simp only [hrun, Option.bind_some]
      rfl
  | some out =>
    simp only [hspec] at happly
    obtain ⟨apply, hlookup, hrun⟩ := happly
    obtain ⟨hwritable, hbound⟩ := hsize out hspec
    have hwrite := imgWrite_eq spec hmem.write hwritable hbound
    by_cases hroom : (Z.compress (filteredImage out)).length + 4 ≤ Z.compressBound (filteredImage out).length
    · rw [if_pos hroom] at hwrite
      simp only [hlookup, hrun, Option.bind_some, hopen, hwrite, if_pos hroom]
      rfl
    · rw [if_neg hroom] at hwrite
      simp only [hlookup, hrun, Option.bind_some, hopen, hwrite, if_neg hroom]
      rfl

/-- **File to file.** The program takes every well-formed PNG file of a picture to a file that is read as
the transformed picture, unless zlib leaves no room for the CRC in the chunk buffer: then the writer leaves
it. Without such a picture the program fails, and writes nothing. -/
theorem imgprocMain_correct (spec : Z.Spec) (hmem : mem.Suffices Z) {file : File}
    (hwf : file.WellFormed spec) (hfile : files inputFilename = some (file.render Z))
    (hopen : writable outputFilename = true) (hw : file.header.width.toNat < 2 ^ 31)
    (hout : outSize transformation file.header.width.toNat *
      outSize transformation file.header.height.toNat < 2 ^ 31)
    (hsize : ∀ out, transformed transformation file.header.width.toNat file.header.height.toNat
      (pixelAt (pngGetBpp file.header).toNat file.pixelBytes) = some out →
        Writable out ∧ Z.compressBound (filteredImage out).length + 4 < 2 ^ 32) :
    match transformed transformation file.header.width.toNat file.header.height.toNat
      (pixelAt (pngGetBpp file.header).toNat file.pixelBytes) with
    | some out =>
      ((Z.compress (filteredImage out)).length + 4 ≤ Z.compressBound (filteredImage out).length →
        ∃ files', imgprocMain Z cFunctions mem writable files
            (prog :: transformation :: inputFilename :: outputFilename :: args) = some (0, files') ∧
          (∀ f, f ≠ outputFilename → files' f = files f) ∧
          ∃ bytes, files' outputFilename = some bytes ∧ ∀ (env : Env) (img : Image), env.Allocates Z →
            imgRead Z env (some bytes) img = some (imgSuccess, out)) ∧
      (Z.compressBound (filteredImage out).length < (Z.compress (filteredImage out)).length + 4 →
        imgprocMain Z cFunctions mem writable files
          (prog :: transformation :: inputFilename :: outputFilename :: args) = none)
    | none =>
      imgprocMain Z cFunctions mem writable files
        (prog :: transformation :: inputFilename :: outputFilename :: args) = some (1, files) := by
  have hh : file.header.height.toNat < 2 ^ 31 := by
    have hsize := hwf.size
    exact Nat.lt_of_le_of_lt (Nat.le_mul_of_pos_right _ (Nat.succ_pos _)) hsize
  have hread : ∀ img, imgRead Z mem.read (files inputFilename) img = some (imgSuccess, file.image) := by
    intro img
    rw [hfile]
    exact imgRead_render hmem.read hwf img
  rw [imgprocMain_eq spec hmem hread hopen hw hh hout hsize]
  cases hspec : transformed transformation file.header.width.toNat file.header.height.toNat
    (pixelAt (pngGetBpp file.header).toNat file.pixelBytes) with
  | none => rfl
  | some out =>
    obtain ⟨hwritable, hbound⟩ := hsize out hspec
    refine ⟨fun hroom => ?_, fun hshort => if_neg (Nat.not_le.mpr hshort)⟩
    refine ⟨_, if_pos hroom, fun f hf => Function.update_of_ne hf _ _, _, Function.update_self .., ?_⟩
    intro env img henv
    exact Storable.read spec ⟨hwritable, hbound, hroom⟩ henv img

/-- Memory without end. -/
def plenty : Memory := ⟨some ⟨0, 0, []⟩, zeros, mallocAll, zeros⟩

theorem plenty_suffices : plenty.Suffices literalZlib :=
  ⟨rfl, zeros_allocates, mallocAll_exact, fun _ _ => rfl, zeros_allocates⟩

/-- The gray of one pixel: zlib leaves room for the CRC. -/
theorem imgprocMain_correct_dot :
    ∃ files', imgprocMain literalZlib cFunctions plenty (fun _ => true)
        (fun _ => some ((fileOf literalZlib dot).render literalZlib))
        ["c_imgproc", "grayscale", "in.png", "out.png"] = some (0, files') ∧
      (∀ f, f ≠ "out.png" → files' f = some ((fileOf literalZlib dot).render literalZlib)) ∧
      ∃ bytes, files' "out.png" = some bytes ∧ ∀ (env : Env) (img : Image), env.Allocates literalZlib →
        imgRead literalZlib env (some bytes) img = some (imgSuccess,
          picture 1 1 fun x => toGrayscale (pixelAt 4 (fileOf literalZlib dot).pixelBytes x)) := by
  have hcorrect := @imgprocMain_correct literalZlib plenty (fun _ => true)
    (fun _ => some ((fileOf literalZlib dot).render literalZlib)) "c_imgproc" "grayscale" "in.png" "out.png" []
    literalSpec plenty_suffices (fileOf literalZlib dot)
    (fileOf_wellFormed literalSpec dot_storable.toWritable (by decide +kernel)) rfl rfl (by decide)
    (by decide) (by rintro out ⟨⟩; exact ⟨⟨rfl, by decide⟩, by decide +kernel⟩)
  exact hcorrect.1 (by decide +kernel)

end CsfAssignments.Imgproc
