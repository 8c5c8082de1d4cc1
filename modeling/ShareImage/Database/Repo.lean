import ShareImage.Database.EventCache
import ShareImage.Framework.Replica

namespace ShareImage

open Framework

/-- The client of the database, as far as the app uses it: `updateChildValues` below one node, the
server's answers and the data that it reports. -/
structure FRepo (Key Leaf : Type) [LinearOrder Key] where
  /-- The data that the server has reported. -/
  serverCache : FNode Key Leaf := .emptyNode
  pendingWriteTree : FWriteTree Key Leaf := {}
  writeIdCounter : Int := 0

namespace FRepo

variable {Key Leaf : Type} [LinearOrder Key]

/-- The compound write of nodes at paths, none of them above another. -/
def compoundWriteFromNodes (values : List (List Key × FNode Key Leaf)) :
    Option (FCompoundWrite Key Leaf) :=
  if values.Pairwise fun x y => ¬x.1<+:y.1 ∧ ¬y.1<+:x.1 then
    some (values.foldl (fun compoundWrite x => compoundWrite.addWrite x.2 x.1) .emptyWrite)
  else none

/-- `update:withNodes:withCallback:`, of nodes without server values to resolve; nothing is written
without nodes. -/
def update (r : FRepo Key Leaf) (path : List Key) (nodes : FCompoundWrite Key Leaf) :
    Option (FRepo Key Leaf) :=
  if nodes.isEmpty then some r
  else do
    let tree ← r.pendingWriteTree.addMergeAtPath path nodes r.writeIdCounter
    return {r with pendingWriteTree := tree,writeIdCounter := r.writeIdCounter+1}

/-- `updateChildValues:`, from the paths and the nodes of the values. -/
def updateChildValues (r : FRepo Key Leaf) (path : List Key)
    (values : List (List Key × FNode Key Leaf)) : Option (FRepo Key Leaf) :=
  (compoundWriteFromNodes values).bind fun merge => r.update path merge

/-- The answer takes the write out of the tree, whether the server has accepted it or not. -/
def ackWrite (r : FRepo Key Leaf) (writeId : Int) : Option (FRepo Key Leaf) :=
  (r.pendingWriteTree.removeWriteId writeId).map fun x => {r with pendingWriteTree := x.2}

def onDataUpdate (r : FRepo Key Leaf) (path : List Key) (data : FNode Key Leaf) : FRepo Key Leaf :=
  {r with serverCache := r.serverCache.updateChild path data}

/-- `calculateCompleteEventCacheWithCompleteServerCache:` of a view at the path. -/
def eventCache (r : FRepo Key Leaf) (path : List Key) : Option (FNode Key Leaf) :=
  r.pendingWriteTree.calculateCompleteEventCacheAtPath path (some (r.serverCache.getChild path))
    none false

section Children

variable {Value : Type} (path : List Key) (nodeFrom : Value → FNode Key Leaf)

/-- A missing value is written and read as the empty node. -/
def childNode (value : Option Value) : FNode Key Leaf := value.elim .emptyNode nodeFrom

/-- What the changes of a table are to the repo, where the table is the children of the node at the
path. The server reports its data, the outcome of an accepted write included, before it answers. -/
def change (r : FRepo Key Leaf) : Replica.Change Key Value → Option (FRepo Key Leaf)
  | .report w => some (r.onDataUpdate (path++[w.key]) (childNode nodeFrom w.value))
  | .submit w => r.updateChildValues path [([w.key],childNode nodeFrom w.value)]
  | .accept =>
    match r.pendingWriteTree.allWrites with
    | [] => none
    | w::_ => (w.pieces.foldl (fun r x => r.onDataUpdate x.1 x.2) r).ackWrite w.writeId
  | .reject =>
    match r.pendingWriteTree.allWrites with
    | [] => none
    | w::_ => r.ackWrite w.writeId

def machine : Machine (FRepo Key Leaf) (Replica.Change Key Value) := ⟨change path nodeFrom⟩

/-- The children of the node at the path are the table. -/
structure Shows (n : FNode Key Leaf) (table : AList fun _ : Key => Value) : Prop where
  inner : ∀s,s<+:path → n.tree.valueAtPath s=none
  child : ∀key,n.getChild (path++[key])=childNode nodeFrom (table.lookup key)

variable {path nodeFrom}

theorem Shows.isOpen {n : FNode Key Leaf} {table : AList fun _ : Key => Value}
    (h : Shows path nodeFrom n table) (key : Key) : n.Open (path++[key]) := by
  intro s hs hne
  apply h.inner
  rcases List.prefix_concat_iff.mp hs with rfl | hs
  · exact absurd rfl hne
  · exact hs

theorem Shows.write {n : FNode Key Leaf} {table : AList fun _ : Key => Value}
    (h : Shows path nodeFrom n table) (w : Write Key Value) :
    Shows path nodeFrom (n.updateChild (path++[w.key]) (childNode nodeFrom w.value))
      (Replica.write table w) := by
  constructor
  · intro s hs
    have hno : ¬path++[w.key]<+:s := by
      intro hle
      have hlength := (hle.trans hs).length_le
      rw [List.length_append,List.length_singleton] at hlength
      omega
    rw [n.valueAtPath_updateChild _ _ s (h.isOpen w.key),if_neg hno]
    exact h.inner s hs
  · intro key
    by_cases hkey : key=w.key
    · subst hkey
      rw [n.getChild_updateChild,Replica.lookup_write_self]
    · rw [n.getChild_updateChild_apart,h.child,Replica.lookup_write_ne table w key hkey]
      · simpa using Ne.symm hkey
      · simpa using hkey

theorem Shows.replay {n : FNode Key Leaf} {table : AList fun _ : Key => Value}
    (h : Shows path nodeFrom n table) (ws : List (Write Key Value)) :
    Shows path nodeFrom
      ((ws.map fun w => (path++[w.key],childNode nodeFrom w.value)).foldl
        (fun n x => n.updateChild x.1 x.2) n) (ws.foldl Replica.write table) := by
  induction ws generalizing n table with
  | nil => exact h
  | cons w ws ih => exact ih (h.write w)

variable (path nodeFrom)

/-- The repo is at one with the client's copy of the table. -/
structure Mirrors (r : FRepo Key Leaf) (t : Replica Key Value) : Prop where
  server : Shows path nodeFrom r.serverCache t.server
  pending : r.pendingWriteTree.allWrites.map FWriteRecord.pieces=
    t.pending.map fun w => [(path++[w.key],childNode nodeFrom w.value)]
  record : ∀w∈r.pendingWriteTree.allWrites,w.path=path ∧ w.visible=true ∧ w.writeId<r.writeIdCounter
  fresh : r.pendingWriteTree.lastWriteId<r.writeIdCounter ∧ 0 ≤ r.writeIdCounter
  layered : r.pendingWriteTree.Layered

variable {path nodeFrom} {r : FRepo Key Leaf} {t : Replica Key Value}

theorem Mirrors.pieces (h : r.Mirrors path nodeFrom t) :
    r.pendingWriteTree.allWrites.flatMap FWriteRecord.pieces=
      t.pending.map fun w => (path++[w.key],childNode nodeFrom w.value) := by
  rw [List.flatMap_def,h.pending,←List.flatMap_def]
  exact List.flatMap_pure_eq_map _ _

/-- What is read of the repo is what is read of the table. -/
theorem Mirrors.eventCache (h : r.Mirrors path nodeFrom t) (key : Key) :
    r.eventCache (path++[key])=some (childNode nodeFrom (t.get key)) := by
  have hopen : r.pendingWriteTree.OpenIn r.serverCache := by
    intro record hrecord x hx
    have hmem := List.mem_flatMap.mpr ⟨record,hrecord,hx⟩
    rw [h.pieces] at hmem
    obtain ⟨w,_,rfl⟩ := List.mem_map.mp hmem
    exact h.server.isOpen w.key
  rw [FRepo.eventCache,h.layered.eventCache r.serverCache hopen,FWriteTree.replay,h.pieces]
  exact congrArg some ((h.server.replay t.pending).child key)

theorem Mirrors.report (h : r.Mirrors path nodeFrom t) (w : Write Key Value) :
    (r.onDataUpdate (path++[w.key]) (childNode nodeFrom w.value)).Mirrors path nodeFrom
      {t with server := Replica.write t.server w} :=
  ⟨h.server.write w,h.pending,h.record,h.fresh,h.layered⟩

/-- The values of one child, as a merge. -/
def childWrite (key : Key) (x : FNode Key Leaf) : FCompoundWrite Key Leaf :=
  FCompoundWrite.emptyWrite.addWrite x [key]

theorem updateChildValues_one (key : Key) (x : FNode Key Leaf)
    (hfresh : r.pendingWriteTree.lastWriteId<r.writeIdCounter) :
    r.updateChildValues path [([key],x)]=some {r with
      pendingWriteTree := ⟨r.pendingWriteTree.visibleWrites.addCompoundWrite (childWrite key x) path,
        r.pendingWriteTree.allWrites++[.merge r.writeIdCounter path (childWrite key x)],
        r.writeIdCounter⟩,
      writeIdCounter := r.writeIdCounter+1} := by
  have hone : compoundWriteFromNodes [([key],x)]=some (childWrite key x) := by
    simp [compoundWriteFromNodes,childWrite]
  have hempty : (childWrite key x).isEmpty=false := rfl
  simp [updateChildValues,hone,update,hempty,FWriteTree.addMergeAtPath,hfresh]

theorem Mirrors.submit (h : r.Mirrors path nodeFrom t) (w : Write Key Value) :
    ∃r',r.updateChildValues path [([w.key],childNode nodeFrom w.value)]=some r' ∧
      r'.Mirrors path nodeFrom {t with pending := t.pending++[w]} := by
  refine ⟨_,updateChildValues_one w.key (childNode nodeFrom w.value) h.fresh.1,h.server,?_,?_,?_,?_⟩
  · simp only [List.map_append,h.pending]
    rfl
  · intro record hrecord
    rcases List.mem_append.mp hrecord with hold | hnew
    · obtain ⟨hpath,hvisible,hid⟩ := h.record record hold
      exact ⟨hpath,hvisible,Int.lt_trans hid (Int.lt_succ r.writeIdCounter)⟩
    · obtain rfl := List.mem_singleton.mp hnew
      exact ⟨rfl,rfl,Int.lt_succ r.writeIdCounter⟩
  · exact ⟨Int.lt_succ r.writeIdCounter,Int.le_add_one h.fresh.2⟩
  · exact h.layered.add (.merge r.writeIdCounter path (childWrite w.key _)) rfl rfl

/-- The answer to the oldest write, however the server's data have become what they are. -/
theorem Mirrors.ackWrite (h : r.Mirrors path nodeFrom t) (record : FWriteRecord Key Leaf)
    (later : List (FWriteRecord Key Leaf)) (hall : r.pendingWriteTree.allWrites=record::later)
    (x : Write Key Value) (xs : List (Write Key Value)) (hpending : t.pending=x::xs)
    (n : FNode Key Leaf) (table : AList fun _ : Key => Value) (hn : Shows path nodeFrom n table) :
    ∃r',({r with serverCache := n} : FRepo Key Leaf).ackWrite record.writeId=some r' ∧
      r'.Mirrors path nodeFrom ⟨table,xs⟩ := by
  have hpaths : ∀w∈record::later,w.path=path := fun w hw => (h.record w (hall ▸ hw)).1
  have hvisible : r.pendingWriteTree.AllVisible := fun w hw => (h.record w hw).2.1
  obtain ⟨⟨b,u⟩,hu⟩ := r.pendingWriteTree.removeWriteId_isSome record (by simp [hall])
  obtain ⟨hrest,_⟩ := r.pendingWriteTree.removeWriteId_oldest u record later b hall
    (hvisible record (by simp [hall])) hu
  have hremovable : FWriteTree.Removable record later := by
    cases later with
    | nil => simp [FWriteTree.Removable]
    | cons y ys =>
      refine .inl ⟨y,List.mem_cons_self,?_⟩
      rw [hpaths record List.mem_cons_self,hpaths y (by simp)]
  refine ⟨{r with serverCache := n,pendingWriteTree := u},by simp [FRepo.ackWrite,hu],hn,?_,?_,?_,?_⟩
  · have hmap := h.pending
    rw [hall,hpending,List.map_cons,List.map_cons] at hmap
    change u.allWrites.map FWriteRecord.pieces=_
    rw [hrest]
    exact (List.cons.inj hmap).2
  · intro w hw
    change w∈u.allWrites at hw
    rw [hrest] at hw
    exact h.record w (by simp [hall,hw])
  · refine ⟨?_,h.fresh.2⟩
    change u.lastWriteId<r.writeIdCounter
    rcases r.pendingWriteTree.removeWriteId_lastWriteId u _ b hu with hsame | hnone | ⟨w,hw,hid⟩
    · rw [hsame]
      exact h.fresh.1
    · have hcounter := h.fresh.2
      omega
    · rw [hid]
      exact (h.record w hw).2.2
  · exact (r.pendingWriteTree.layered_remove_iff u record later b hvisible h.layered hall hu).mpr
      hremovable

theorem Mirrors.oldest (h : r.Mirrors path nodeFrom t) :
    (r.pendingWriteTree.allWrites=[] ∧ t.pending=[]) ∨
      ∃record later x xs,r.pendingWriteTree.allWrites=record::later ∧ t.pending=x::xs ∧
        record.pieces=[(path++[x.key],childNode nodeFrom x.value)] := by
  have hmap := h.pending
  cases hall : r.pendingWriteTree.allWrites with
  | nil =>
    rw [hall] at hmap
    exact .inl ⟨rfl,by simpa using hmap.symm⟩
  | cons record later =>
    cases hpending : t.pending with
    | nil => simp [hall,hpending] at hmap
    | cons x xs =>
      rw [hall,hpending,List.map_cons,List.map_cons] at hmap
      exact .inr ⟨record,later,x,xs,rfl,rfl,(List.cons.inj hmap).1⟩

theorem Mirrors.step (h : r.Mirrors path nodeFrom t) (c : Replica.Change Key Value) :
    Option.Rel (Mirrors path nodeFrom) (r.change path nodeFrom c) (t.change c) := by
  cases c with
  | report w => exact .some (h.report w)
  | submit w =>
    obtain ⟨r',hr',hmirrors⟩ := h.submit w
    rw [FRepo.change,hr']
    exact .some hmirrors
  | accept =>
    rcases h.oldest with ⟨hall,hpending⟩ | ⟨record,later,x,xs,hall,hpending,hpieces⟩
    · simp only [FRepo.change,hall,Replica.change,hpending]
      exact .none
    · obtain ⟨r',hr',hmirrors⟩ := h.ackWrite record later hall x xs hpending _ _ (h.server.write x)
      simp only [FRepo.change,hall,hpieces,List.foldl_cons,List.foldl_nil,onDataUpdate,hr',
        Replica.change,hpending]
      exact .some hmirrors
  | reject =>
    rcases h.oldest with ⟨hall,hpending⟩ | ⟨record,later,x,xs,hall,hpending,_⟩
    · simp only [FRepo.change,hall,Replica.change,hpending]
      exact .none
    · obtain ⟨r',hr',hmirrors⟩ := h.ackWrite record later hall x xs hpending _ _ h.server
      simp only [FRepo.change,hall,hr',Replica.change,hpending]
      exact .some hmirrors

theorem Mirrors.launch {n : FNode Key Leaf} {table : AList fun _ : Key => Value}
    (hn : Shows path nodeFrom n table) :
    Mirrors path nodeFrom {serverCache := n} {server := table} :=
  ⟨hn,rfl,by simp,⟨(by decide : (-1 : Int)<0),le_refl (0 : Int)⟩,rfl⟩

theorem Mirrors.run (h : r.Mirrors path nodeFrom t) (cs : List (Replica.Change Key Value)) :
    Option.Rel (Mirrors path nodeFrom) ((machine path nodeFrom).run r cs)
      ((⟨Replica.change⟩ : Machine _ _).run t cs) :=
  (machine path nodeFrom).run_lockstep ⟨Replica.change⟩ (Mirrors path nodeFrom)
    (fun _ _ c h => h.step c) r t cs h

/-- Whatever is written, reported and answered, the repo takes the same changes as the client's copy
of the table, and gives the same to read at each key. -/
theorem repo_refines_replica {n : FNode Key Leaf} {table : AList fun _ : Key => Value}
    (hn : Shows path nodeFrom n table) (cs : List (Replica.Change Key Value)) :
    Option.Rel (fun (r : FRepo Key Leaf) (t : Replica Key Value) =>
        ∀key,r.eventCache (path++[key])=some (childNode nodeFrom (t.get key)))
      ((machine path nodeFrom).run {serverCache := n} cs)
      ((⟨Replica.change⟩ : Machine _ _).run {server := table} cs) := by
  have hrun := (Mirrors.launch hn).run cs
  generalize (machine path nodeFrom).run {serverCache := n} cs=r at hrun ⊢
  generalize (⟨Replica.change⟩ : Machine _ _).run {server := table} cs=t at hrun ⊢
  cases hrun with
  | none => exact .none
  | some hmirrors => exact .some hmirrors.eventCache

end Children

end FRepo

end ShareImage
