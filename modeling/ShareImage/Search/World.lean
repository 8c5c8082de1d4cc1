import ShareImage.Database.Utilities
import ShareImage.Framework.Machine
import ShareImage.Framework.Replica
import ShareImage.Controller.SearchTableViewController

namespace ShareImage.Search

open Framework

abbrev Users := Replica String AnyObject

/-- One search screen and `users` as its client sees it. What is changed or removed raises events of
other types than `childAdded`, which nothing in the app observes. -/
structure World where
  node : Users
  controller : SearchTableViewController := {}
  observing : Bool := false
  /-- The `childAdded` events that are raised and not yet delivered. -/
  queue : List DataSnapshot := []

inductive Event where
  | viewDidLoad
  | change (c : Replica.Change String AnyObject)
  | deliver

namespace World

/-- `children` are what the server has, each with some data. -/
def launch (children : AList fun _ : String => AnyObject) : World where
  node := {server := children}

/-- The children that appear to the observer with the event; those that are there when it is
registered come in the order of their keys. -/
def appeared (w : World) : Event → List (String × AnyObject)
  | .viewDidLoad => FUtilities.sortedByKey w.node.entries
  | .change c =>
    match w.node.change c with
    | some node => if w.observing then w.node.appeared node c else []
    | none => []
  | .deliver => []

def raise (w : World) (e : Event) : List DataSnapshot :=
  w.queue++(w.appeared e).map fun child => ⟨child.1,child.2⟩

/-- A child without data is none: what is written of it is its removal. -/
def stores : Replica.Change String AnyObject → Bool
  | .report x | .submit x => x.value.all AnyObject.hasData
  | .accept | .reject => true

def step (w : World) : Event → Option World
  | .viewDidLoad =>
    if w.observing then none
    else some {w with observing := true,queue := w.raise .viewDidLoad}
  | .change c =>
    if stores c then (w.node.change c).map fun node =>
      {w with node := node,queue := w.raise (.change c)}
    else none
  | .deliver =>
    match w.queue with
    | [] => none
    | snapshot::queue => some {w with controller := w.controller.fetchUsers snapshot,queue := queue}

/-- The users that a list which mirrors the node has under the uid. -/
def mirrored (w : World) (uid : String) : List User :=
  (w.node.entry uid).filterMap fun child => DataSnapshot.user ⟨child.1,child.2⟩

def Mirrors (w : World) : Prop :=
  ∀uid,(w.controller.users.filter fun user => user.uid==uid)=w.mirrored uid

end World

def machine : Machine World Event := ⟨World.step⟩

end ShareImage.Search
