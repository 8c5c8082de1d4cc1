import ShareImage.SignUp.World
import ShareImage.Table.World

namespace ShareImage

namespace SignUps

open Framework

/-- The write that `updateChildValues` asks for. -/
def Record.write (r : Record) : Write String AnyObject := ⟨r.uid,some (.dictionary r.values)⟩

/-- The request of `updateChildValues` is unanswered. -/
def Flow.saving (f : Flow) : Bool :=
  match f.stage with
  | .updateChildValues _ _ none => true
  | _ => false

/-- What the event does to the client's copy of `users`. The client shows the values passed to
`updateChildValues` at once; the answer confirms them or takes them back. No answer to them is lost:
the client sends them again until it has one. -/
def World.change (w : World) : Event → Option (Replica.Change String AnyObject)
  | .complete i => do
    let f ← w.flows[i]?
    let next ← f.complete i
    let r ← next.2.writes.head?
    return .submit r.write
  | .answer i outcome => do
    let f ← w.flows[i]?
    if f.saving then
      match outcome with
      | .success _ => some .accept
      | .failure _ => some .reject
      | .nilURL | .lost _ _ => none
    else none
  | _ => none

/-- The event loses an answer of the database. -/
def World.unsettled (w : World) : Event → Bool
  | .answer i (.lost _ _) => w.flows[i]?.any Flow.saving
  | _ => false

/-- The records that the database has not answered for, oldest first. -/
def World.unanswered (w : World) : List Record :=
  w.services.writes.filter fun r => w.flows[r.flow]?.any Flow.saving

end SignUps

namespace App

open Framework

/-- The sign-ups and the search screen over one client of the database, and Storage, from which the
cells load what the sign-ups have put there. -/
structure World where
  signUps : SignUps.World
  table : Table.World

inductive Event where
  | signUp (e : SignUps.Event)
  /-- A write of another client. -/
  | report (x : Write String AnyObject)
  | table (e : Table.Event)

namespace World

def launch (p : Platform) (children : AList fun _ : String => AnyObject) : World where
  signUps := .launch p
  table := .launch children

/-- Storage gives an object a URL that no object has and nobody has loaded. -/
def issues (p : Platform) (w : World) (url : String) : Bool :=
  p.parse url==some ⟨url⟩ && w.signUps.services.storage.all (fun o => o.url != ⟨url⟩) &&
    w.table.views.images.responses.all fun r => r.url != ⟨url⟩

/-- What a URL of Storage serves is the object. -/
def serves (w : World) (task : Nat) (data : Option Data) : Bool :=
  w.table.views.images.tasks[task]?.all fun t => data.all fun d =>
    w.signUps.services.storage.all fun o => o.url != t.url || o.data==d

/-- What Firebase keeps to. The database answers the writes of a client in their order, with an
error only where it has not taken them, and the client's copy of `users` changes only with its own
writes and those reported. -/
def allowed (p : Platform) (w : World) : Event → Bool
  | .signUp (.answer i outcome) =>
    match w.signUps.flows[i]?.map SignUps.Flow.stage,outcome with
    | some (.putData _ none),.success url | some (.putData _ none),.lost url _ => w.issues p url
    | some (.updateChildValues _ _ none),.lost _ _ => false
    | some (.updateChildValues _ _ none),_ => w.signUps.unanswered.head?.any fun r => r.flow==i
    | _,_ => true
  | .table (.completeTask k data _) => w.serves k data
  | .table (.search (.change _)) => false
  | _ => true

/-- What the event is to the sign-ups. -/
def signUpEvents (_ : World) : Event → List SignUps.Event
  | .signUp e => [e]
  | _ => []

/-- What the event is to the search screen. -/
def tableEvents (w : World) : Event → List Table.Event
  | .signUp e => (w.signUps.change e).toList.map fun c => .search (.change c)
  | .report x => [.search (.change (.report x))]
  | .table e => [e]

def step (p : Platform) (w : World) (e : Event) : Option World :=
  if w.allowed p e then do
    let signUps ← (SignUps.machine p).run w.signUps (w.signUpEvents e)
    let table ← (Table.machine p).run w.table (w.tableEvents e)
    return {signUps,table}
  else none

end World

def machine (p : Platform) : Machine World Event := ⟨World.step p⟩

/-- A sign-up that comes to the request of `updateChildValues`. -/
def signedUp : List SignUps.Event :=
  SignUps.submission 0 {pixels := [7]} "a@x.org" "secret" "Ann Lee" "Ann" "U1"++
    [.answer 0 (.success "uid1"),.complete 0,.answer 0 (.success "https://i/1"),.complete 0,
      .answer 0 (.success ""),.complete 0]

end App

end ShareImage
