import ShareImage.App.World
import ShareImage.Session.World

namespace ShareImage.Device

open Framework

/-- The sign-ups and the search screen beside the session, over one client of the database, which
the profile screen reads too. Auth's part in the sign-ups and in the session is not tied together,
so the two interleave in more ways than Auth allows. -/
structure World where
  app : App.World
  session : Session.World

inductive Event where
  | app (e : App.Event)
  | session (e : Session.Event)
  /-- The value that a header has asked for comes from the client. -/
  | fetched (fetch : Nat)

namespace World

def launch (p : Platform) (children : AList fun _ : String => AnyObject)
    (currentUser : Option String) : World where
  app := .launch p children
  session := .launch currentUser

/-- What `observeSingleEvent(of: .value)` is given for a child of `users`. -/
def value (w : World) (uid : String) : AnyObject :=
  (w.app.table.search.node.get uid).getD .null

def step (p : Platform) (detached : Bool) (w : World) : Event → Option World
  | .app e => (w.app.step p e).map fun app => {w with app := app}
  | .session (.completeFetch _ _) => none
  | .session e => (w.session.step detached e).map fun session => {w with session := session}
  | .fetched k => do
    let f ← w.session.fetches[k]?
    let session ← w.session.step detached (.completeFetch k (w.value f.uid))
    return {w with session := session}

/-- What the event is to the sign-ups and the search screen. -/
def appEvents (_ : World) : Event → List App.Event
  | .app e => [e]
  | _ => []

/-- What the event is to the session. -/
def sessionEvents (w : World) : Event → List Session.Event
  | .app _ => []
  | .session e => [e]
  | .fetched k => w.session.fetches[k]?.toList.map fun f => .completeFetch k (w.value f.uid)

end World

def machine (p : Platform) (detached : Bool) : Machine World Event := ⟨World.step p detached⟩

end ShareImage.Device
