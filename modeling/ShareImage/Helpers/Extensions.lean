import ShareImage.Platform
import Mathlib.Logic.Function.Basic

namespace ShareImage

/-- The global `imageCache`, a `[String: UIImage]`: its entries by the normal form of the key. -/
structure ImageCache where
  entry : String → Option UIImage := fun _ => none

namespace ImageCache

def get (p : Platform) (imageCache : ImageCache) (key : String) : Option UIImage :=
  imageCache.entry (p.normal key)

/-- No image takes the entry away. -/
def set (p : Platform) (imageCache : ImageCache) (key : String) (image : Option UIImage) :
    ImageCache :=
  ⟨Function.update imageCache.entry (p.normal key) image⟩

theorem get_set (p : Platform) (imageCache : ImageCache) (key s : String)
    (image : Option UIImage) : (imageCache.set p key image).get p s=
      if p.normal s=p.normal key then image else imageCache.get p s := by
  unfold set get
  split
  · rename_i h
    rw [h]
    exact Function.update_self ..
  · rename_i h
    exact Function.update_of_ne h ..

end ImageCache

namespace UIImageView

/-- What `loadImage(with:)` does before it returns. -/
inductive Load where
  | assign (cachedImage : UIImage)
  | nothing
  | fetch (url : URL)
  deriving DecidableEq

def loadImage (p : Platform) (imageCache : ImageCache) (urlString : String) : Load :=
  match imageCache.get p urlString with
  | some cachedImage => .assign cachedImage
  | none =>
    match p.parse urlString with
    | none => .nothing
    | some url => .fetch url

/-- The completion of the data task for `url`: the cache after it, and the image that it posts to
the main queue, if it gets that far. An error is printed and otherwise ignored. Data that does
not decode removes the entry, and a nil image is posted like any other. -/
def taskCompletion (p : Platform) (imageCache : ImageCache) (url : URL) (data : Option Data)
    (_error : Option String) : ImageCache × Option (Option UIImage) :=
  match data with
  | none => (imageCache,none)
  | some imageData =>
    let photoImage := p.image imageData
    (imageCache.set p url.absoluteString photoImage,some photoImage)

end UIImageView

end ShareImage
