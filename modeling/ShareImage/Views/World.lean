import ShareImage.Controller.SearchUserCell
import ShareImage.View.UserProfileHeader
import ShareImage.Images.World

namespace ShareImage.Views

open Framework

inductive Kind where
  | searchUserCell
  | userProfileHeader
  deriving DecidableEq

/-- A view without its image, which is that of the image view with the same number. -/
inductive ReusableView where
  | searchUserCell (cell : SearchUserCell)
  | userProfileHeader (header : UserProfileHeader)
  deriving DecidableEq

namespace ReusableView

def new : Kind → ReusableView
  | .searchUserCell => .searchUserCell {}
  | .userProfileHeader => .userProfileHeader {}

def kind : ReusableView → Kind
  | .searchUserCell _ => .searchUserCell
  | .userProfileHeader _ => .userProfileHeader

def didSet : ReusableView → Option User → ReusableView × Option String
  | .searchUserCell cell,user => (cell.didSet user).map .searchUserCell id
  | .userProfileHeader header,user => (header.didSet user).map .userProfileHeader id

end ReusableView

/-- The cells of the search screen and the headers of the profile screen. Every image view belongs
to one of them and loads only what its `didSet` asks for. -/
structure World where
  images : Images.World := {}
  view : Nat → ReusableView

inductive Event where
  | setUser (view : Nat) (user : User)
  | completeTask (task : Nat) (data : Option Data) (error : Option String)
  | runPosted (position : Nat)
  deriving DecidableEq

/-- The event sets the user of the view. -/
def Event.sets (n : Nat) : Event → Bool
  | .setUser m _ => m==n
  | _ => false

namespace World

def launch (kind : Nat → Kind) : World where
  view := fun n => .new (kind n)

def setUser (p : Platform) (w : World) (n : Nat) (user : User) : World :=
  let (view,profileImageUrl) := (w.view n).didSet (some user)
  {images := match profileImageUrl with
    | none => w.images
    | some urlString => w.images.loadImage p n urlString
   view := Function.update w.view n view}

def step (p : Platform) (w : World) : Event → Option World
  | .setUser n user => some (w.setUser p n user)
  | .completeTask k data error =>
    (w.images.step p (.completeTask k data error)).map fun images => {w with images := images}
  | .runPosted k => (w.images.step p (.runPosted k)).map fun images => {w with images := images}

/-- What the event is to the image views. -/
def imageEvents (w : World) : Event → List Images.Event
  | .setUser n user => ((w.view n).didSet (some user)).2.toList.map (.loadImage n)
  | .completeTask k data error => [.completeTask k data error]
  | .runPosted k => [.runPosted k]

end World

def machine (p : Platform) : Machine World Event := ⟨World.step p⟩

end ShareImage.Views
