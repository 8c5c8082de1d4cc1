import Mathlib.Data.Rat.Init
import Mathlib.Data.String.Basic

namespace ShareImage

structure Data where
  bytes : List UInt8
  deriving DecidableEq

inductive RenderingMode where
  | automatic
  | alwaysOriginal
  | alwaysTemplate
  deriving DecidableEq

structure UIImage where
  pixels : List UInt8
  renderingMode : RenderingMode := .automatic
  deriving DecidableEq

def UIImage.withRenderingMode (image : UIImage) (mode : RenderingMode) : UIImage :=
  {image with renderingMode := mode}

structure URL where
  absoluteString : String
  deriving DecidableEq

/-- The Swift, Foundation and UIKit functions the app computes with.
`parse` is `URL(string:)`, which need not keep the string it was given;
only parsing its own `absoluteString` gives the URL back. `normal` is the canonical normal form,
by which Swift compares and hashes strings; an `absoluteString` is ASCII, which has no other. -/
structure Platform where
  lowercased : String → String
  lowercased_eq_empty : ∀t,lowercased t="" → t=""
  encode : List UInt8 → ℚ → Option Data
  decode : Data → Option (List UInt8)
  parse : String → Option URL
  parse_absoluteString : ∀t url,parse t=some url → parse url.absoluteString=some url
  normal : String → String
  normal_absoluteString : ∀t url,parse t=some url → normal url.absoluteString=url.absoluteString
  plusButton : List UInt8

namespace Platform

/-- `jpegData(compressionQuality:)` reads the bitmap; the rendering mode only affects drawing. -/
def jpegData (p : Platform) (image : UIImage) (compressionQuality : ℚ) : Option Data :=
  p.encode image.pixels compressionQuality

/-- `UIImage(data:)`. -/
def image (p : Platform) (data : Data) : Option UIImage :=
  (p.decode data).map fun pixels => {pixels}

theorem jpegData_withRenderingMode (p : Platform) (image : UIImage) (mode : RenderingMode)
    (q : ℚ) : p.jpegData (image.withRenderingMode mode) q=p.jpegData image q := rfl

private def lowercase (t : String) : String := String.ofList (t.toList.map Char.toLower)

/-- A platform small enough to run: bitmaps are their own encoding, nothing decodes from no
bytes, every string is normal, and only the empty one is no URL. -/
def plain : Platform where
  lowercased := lowercase
  lowercased_eq_empty := fun t h => by simpa [lowercase] using h
  encode := fun pixels _ => if pixels=[] then none else some ⟨pixels⟩
  decode := fun data => if data.bytes=[] then none else some data.bytes
  parse := fun t => if t="" then none else some ⟨t⟩
  parse_absoluteString := by
    intro t url h
    split at h
    · contradiction
    · cases h; simpa
  normal := fun t => t
  normal_absoluteString := fun _ _ _ => rfl
  plusButton := [0]

end Platform

end ShareImage
