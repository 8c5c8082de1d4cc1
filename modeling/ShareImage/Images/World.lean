import ShareImage.Framework.Machine
import ShareImage.Helpers.Extensions

namespace ShareImage.Images

open Framework

structure Task where
  call : Nat
  view : Nat
  url : URL
  deriving DecidableEq

structure Assignment where
  call : Nat
  view : Nat
  image : Option UIImage
  deriving DecidableEq

structure Response where
  call : Nat
  url : URL
  data : Data
  deriving DecidableEq

/-- All image views with the shared cache. The calls of `loadImage(with:)` are numbered; the
download of a call, and then the assignment it posts to the main queue, are in flight until their
events happen, in any order. -/
structure World where
  cache : ImageCache := {}
  image : Nat → Option UIImage := fun _ => none
  /-- The view and the string of each call, in order. -/
  calls : List (Nat × String) := []
  tasks : List Task := []
  posted : List Assignment := []
  /-- The data that downloads have brought, in order. -/
  responses : List Response := []

inductive Event where
  | loadImage (view : Nat) (urlString : String)
  | completeTask (task : Nat) (data : Option Data) (error : Option String)
  | runPosted (position : Nat)
  deriving DecidableEq

namespace World

/-- The entry of the cache for the string. -/
def cached (p : Platform) (w : World) (urlString : String) : Option UIImage :=
  w.cache.get p urlString

@[simp] theorem cache_get (p : Platform) (w : World) (urlString : String) :
    w.cache.get p urlString=w.cached p urlString := rfl

def loadImage (p : Platform) (w : World) (view : Nat) (urlString : String) : World :=
  let w' := {w with calls := w.calls++[(view,urlString)]}
  match UIImageView.loadImage p w.cache urlString with
  | .assign cachedImage => {w' with image := Function.update w.image view (some cachedImage)}
  | .nothing => w'
  | .fetch url => {w' with tasks := w.tasks++[⟨w.calls.length,view,url⟩]}

def completeTask (p : Platform) (w : World) (k : Nat) (t : Task) (data : Option Data)
    (error : Option String) : World :=
  let (cache,photoImage) := UIImageView.taskCompletion p w.cache t.url data error
  {w with
    cache := cache
    tasks := w.tasks.eraseIdx k
    posted := w.posted++photoImage.toList.map fun image => ⟨t.call,t.view,image⟩
    responses := w.responses++data.toList.map fun d => ⟨t.call,t.url,d⟩}

def runPosted (w : World) (k : Nat) (a : Assignment) : World :=
  {w with image := Function.update w.image a.view a.image,posted := w.posted.eraseIdx k}

def step (p : Platform) (w : World) : Event → Option World
  | .loadImage view urlString => some (w.loadImage p view urlString)
  | .completeTask k data error => w.tasks[k]?.map fun t => w.completeTask p k t data error
  | .runPosted k => w.posted[k]?.map fun a => w.runPosted k a

/-- The image that the event assigns, and to which view. -/
def assigned (p : Platform) (w : World) : Event → Option (Nat × Option UIImage)
  | .loadImage view urlString => (w.cached p urlString).map fun image => (view,some image)
  | .completeTask _ _ _ => none
  | .runPosted k => w.posted[k]?.map fun a => (a.view,a.image)

/-- The calls whose download or posted assignment is in flight for the view. -/
def outstanding (w : World) (view : Nat) : List Nat :=
  (w.tasks.filter fun t => t.view==view).map Task.call++
    (w.posted.filter fun a => a.view==view).map Assignment.call

end World

def machine (p : Platform) : Machine World Event := ⟨World.step p⟩

/-- The image comes from a response to the URL that the string denotes. -/
def World.Own (p : Platform) (w : World) (urlString : String) (image : Option UIImage) : Prop :=
  ∃r∈w.responses,p.parse urlString=some r.url ∧ p.image r.data=image

/-- The image comes from a response to a URL whose `absoluteString` is the same string to Swift. -/
def World.Filed (p : Platform) (w : World) (urlString : String) (image : Option UIImage) : Prop :=
  ∃r∈w.responses,p.normal urlString=p.normal r.url.absoluteString ∧ p.image r.data=image

instance (p : Platform) (w : World) (urlString : String) (image : Option UIImage) :
    Decidable (w.Own p urlString image) := by
  unfold World.Own
  infer_instance

end ShareImage.Images
