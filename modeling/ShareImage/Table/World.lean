import ShareImage.Framework.Pool
import ShareImage.Search.World
import ShareImage.Views.World

namespace ShareImage.Table

open Framework

structure World where
  search : Search.World
  views : Views.World := .launch fun _ => .searchUserCell
  /-- The `user` of each cell. -/
  user : Nat → Option User := fun _ => none
  /-- The cells of the rows on screen, and those that wait to be reused. -/
  cells : Pool Nat := .empty
  /-- What the data source last reported. -/
  numberOfRows : Nat := 0
  /-- `reloadData` has been called since. -/
  needsReload : Bool := false
  trapped : Bool := false

inductive Event where
  | search (e : Search.Event)
  | reload
  | cellForRow (row position : Nat)
  | endDisplaying (row : Nat)
  | didSelectRow (row : Nat)
  | completeTask (task : Nat) (data : Option Data) (error : Option String)
  | runPosted (position : Nat)

namespace World

def launch (children : AList fun _ : String => AnyObject) : World where
  search := .launch children

/-- The row has a cell. -/
def shows (w : World) (row : Nat) : Bool := w.cells.used.any fun u => u.1==row

/-- The event runs a callback of `fetchUsers` that calls `reloadData`. -/
def reloadsData (w : World) : Search.Event → Bool
  | .deliver => w.search.queue.head?.any SearchTableViewController.reloadsData
  | _ => false

/-- `cell.user = user` in `tableView(_:cellForRowAt:)`, for the cell that the table view has
dequeued. -/
def setUser (p : Platform) (w : World) (cells : Pool Nat) (cell : Nat) (user : User) : World :=
  {w with
    cells := cells
    views := w.views.setUser p cell user
    user := Function.update w.user cell (some user)}

/-- What an event of the image views does. -/
def imageStep (p : Platform) (w : World) (e : Views.Event) : Option World :=
  (w.views.step p e).map fun views => {w with views := views}

def react (p : Platform) (w : World) : Event → Option World
  | .search e => (w.search.step e).map fun search =>
    {w with search := search,needsReload := w.needsReload || w.reloadsData e}
  | .reload => some {w with
    cells := w.cells.release fun _ => true
    numberOfRows := w.search.controller.numberOfRowsInSection
    needsReload := false}
  | .cellForRow row position =>
    if row<w.numberOfRows then
      (w.cells.acquire row position).map fun (cells,cell) =>
        match w.search.controller.cellForRow row with
        | some user => w.setUser p cells cell user
        | none => {w with trapped := true}
    else none
  | .endDisplaying row =>
    if w.shows row then some {w with cells := w.cells.release fun r => r==row} else none
  | .didSelectRow row =>
    if w.shows row then
      match w.search.controller.didSelectRow row with
      | some _ => some w
      | none => some {w with trapped := true}
    else none
  | .completeTask k data error => w.imageStep p (.completeTask k data error)
  | .runPosted k => w.imageStep p (.runPosted k)

def step (p : Platform) (w : World) (e : Event) : Option World :=
  if w.trapped then none else w.react p e

end World

def machine (p : Platform) : Machine World Event := ⟨World.step p⟩

end ShareImage.Table
