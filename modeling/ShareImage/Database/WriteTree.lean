import ShareImage.Database.CompoundWrite
import ShareImage.Framework.Machine

namespace ShareImage

open Framework

/-- A pending write. A merge is always visible. -/
inductive FWriteRecord (Key Leaf : Type) [LinearOrder Key] where
  | overwrite (writeId : Int) (path : List Key) (overwrite : FNode Key Leaf) (visible : Bool)
  | merge (writeId : Int) (path : List Key) (merge : FCompoundWrite Key Leaf)

namespace FWriteRecord

variable {Key Leaf : Type} [LinearOrder Key]

def writeId : FWriteRecord Key Leaf → Int
  | .overwrite writeId _ _ _ => writeId
  | .merge writeId _ _ => writeId

def path : FWriteRecord Key Leaf → List Key
  | .overwrite _ path _ _ => path
  | .merge _ path _ => path

def visible : FWriteRecord Key Leaf → Bool
  | .overwrite _ _ _ visible => visible
  | .merge _ _ _ => true

/-- The nodes written, each with its whole path. -/
def pieces : FWriteRecord Key Leaf → List (List Key × FNode Key Leaf)
  | .overwrite _ path newData _ => [(path,newData)]
  | .merge _ path changedChildren => changedChildren.enumerateWrites.map fun x => (path++x.1,x.2)

/-- `record:containsPath:` of `FWriteTree`. -/
def containsPath (record : FWriteRecord Key Leaf) (path : List Key) : Bool :=
  match record with
  | .overwrite _ writePath _ _ => decide (writePath<+:path)
  | .merge _ writePath changedChildren =>
    changedChildren.enumerateWrites.any fun x => decide (writePath++x.1<+:path)

theorem containsPath_iff (record : FWriteRecord Key Leaf) (path : List Key) :
    record.containsPath path=true ↔ ∃x∈record.pieces,x.1<+:path := by
  cases record with
  | overwrite writeId writePath node visible => simp [containsPath,pieces]
  | merge writeId writePath changedChildren =>
    simp only [containsPath,pieces,List.any_eq_true,decide_eq_true_eq,List.mem_map,
      exists_exists_and_eq_and]

theorem path_le_pieces (record : FWriteRecord Key Leaf) :
    ∀x∈record.pieces,record.path<+:x.1 := by
  cases record with
  | overwrite writeId writePath node visible => simp [pieces,path]
  | merge writeId writePath changedChildren =>
    intro x hx
    obtain ⟨y,_,rfl⟩ := List.mem_map.mp hx
    exact List.prefix_append writePath y.1

end FWriteRecord

/-- The writes of this client that the server has not answered yet. `visibleWrites` merges them into
one tree, which is mended or rebuilt when the server answers one of them. -/
structure FWriteTree (Key Leaf : Type) [LinearOrder Key] where
  visibleWrites : FCompoundWrite Key Leaf := .emptyWrite
  allWrites : List (FWriteRecord Key Leaf) := []
  lastWriteId : Int := -1

namespace FWriteTree

variable {Key Leaf : Type} [LinearOrder Key]

def addOverwriteAtPath (t : FWriteTree Key Leaf) (path : List Key) (newData : FNode Key Leaf)
    (writeId : Int) (visible : Bool) : Option (FWriteTree Key Leaf) :=
  if writeId>t.lastWriteId then
    some ⟨if visible then t.visibleWrites.addWrite newData path else t.visibleWrites,
      t.allWrites++[.overwrite writeId path newData visible],writeId⟩
  else none

def addMergeAtPath (t : FWriteTree Key Leaf) (path : List Key)
    (changedChildren : FCompoundWrite Key Leaf) (writeId : Int) : Option (FWriteTree Key Leaf) :=
  if writeId>t.lastWriteId then
    some ⟨t.visibleWrites.addCompoundWrite changedChildren path,
      t.allWrites++[.merge writeId path changedChildren],writeId⟩
  else none

def writeForId (t : FWriteTree Key Leaf) (writeId : Int) : Option (FWriteRecord Key Leaf) :=
  t.allWrites.find? fun write => write.writeId=writeId

/-- One record of `layerTreeFromWrites:filter:treeRoot:`. -/
def layerRecord (treeRoot : List Key) (compoundWrite : FCompoundWrite Key Leaf)
    (record : FWriteRecord Key Leaf) : FCompoundWrite Key Leaf :=
  match record with
  | .overwrite _ writePath overwrite _ =>
    if treeRoot<+:writePath then
      compoundWrite.addWrite overwrite (writePath.drop treeRoot.length)
    else if writePath<+:treeRoot then
      compoundWrite.addWrite (overwrite.getChild (treeRoot.drop writePath.length)) []
    else compoundWrite
  | .merge _ writePath merge =>
    if treeRoot<+:writePath then
      compoundWrite.addCompoundWrite merge (writePath.drop treeRoot.length)
    else if writePath<+:treeRoot then
      match treeRoot.drop writePath.length with
      | [] => compoundWrite.addCompoundWrite merge []
      | front::rest =>
        match merge.completeNodeAtPath (front::rest) with
        -- `child` is read at `popFront` once more, although it is the node at the whole path
        | some child => compoundWrite.addWrite (child.getChild rest) []
        | none => compoundWrite
    else compoundWrite

def layerTreeFromWrites (writes : List (FWriteRecord Key Leaf))
    (filter : FWriteRecord Key Leaf → Bool) (treeRoot : List Key) : FCompoundWrite Key Leaf :=
  (writes.filter filter).foldl (layerRecord treeRoot) .emptyWrite

/-- It is to keep what is visible, and keeps everything. -/
def defaultFilter : FWriteRecord Key Leaf → Bool := fun _ => true

def resetTree (t : FWriteTree Key Leaf) : FWriteTree Key Leaf where
  visibleWrites := layerTreeFromWrites t.allWrites defaultFilter []
  allWrites := t.allWrites
  lastWriteId :=
    match t.allWrites.getLast? with
    | some lastRecord => lastRecord.writeId
    | none => -1

/-- The loop of `removeWriteId:`, down from the write before `n`. It tells whether the write that was
at `index` is not shadowed, and if so whether it overlaps with other writes. -/
def scan (allWrites : List (FWriteRecord Key Leaf)) (writeToRemove : FWriteRecord Key Leaf)
    (index : Nat) : Nat → Bool → Bool × Bool
  | 0,overlaps => (true,overlaps)
  | i+1,overlaps =>
    match allWrites[i]? with
    | none => scan allWrites writeToRemove index i overlaps
    | some currentWrite =>
      if currentWrite.visible then
        if index ≤ i ∧ currentWrite.containsPath writeToRemove.path=true then (false,overlaps)
        else if writeToRemove.path<+:currentWrite.path then scan allWrites writeToRemove index i true
        else scan allWrites writeToRemove index i overlaps
      else scan allWrites writeToRemove index i overlaps

/-- The write is taken out of the tree, with all that is below its places. -/
def prune (t : FWriteTree Key Leaf) (writeToRemove : FWriteRecord Key Leaf) : FWriteTree Key Leaf :=
  match writeToRemove with
  | .overwrite _ path _ _ => {t with visibleWrites := t.visibleWrites.removeWriteAtPath path}
  | .merge _ path merge =>
    let visibleWrites := merge.enumerateWrites.foldl
      (fun visibleWrites x => visibleWrites.removeWriteAtPath (path++x.1)) t.visibleWrites
    {t with visibleWrites := visibleWrites}

/-- Also tells whether the write may have been visible. -/
def removeWriteId (t : FWriteTree Key Leaf) (writeId : Int) : Option (Bool × FWriteTree Key Leaf) :=
  match t.allWrites.findIdx? fun record => record.writeId=writeId with
  | none => none
  | some index =>
    match t.allWrites[index]? with
    | none => none
    | some writeToRemove =>
      let rest := {t with allWrites := t.allWrites.eraseIdx index}
      if writeToRemove.visible then
        match scan rest.allWrites writeToRemove index rest.allWrites.length false with
        | (false,_) => some (false,rest)
        | (true,true) => some (true,rest.resetTree)
        | (true,false) => some (true,rest.prune writeToRemove)
      else some (false,rest)

def removeAllWrites (t : FWriteTree Key Leaf) : FWriteTree Key Leaf :=
  {t with visibleWrites := .emptyWrite,allWrites := []}

/-- What is read at the path, over what the server has there. `none` is not complete. -/
def calculateCompleteEventCacheAtPath (t : FWriteTree Key Leaf) (treePath : List Key)
    (completeServerCache : Option (FNode Key Leaf)) (writeIdsToExclude : Option (List Int))
    (includeHiddenWrites : Bool) : Option (FNode Key Leaf) :=
  if writeIdsToExclude=none ∧ includeHiddenWrites=false then
    match t.visibleWrites.completeNodeAtPath treePath with
    | some shadowingNode => some shadowingNode
    | none =>
      let subMerge := t.visibleWrites.childCompoundWriteAtPath treePath
      if subMerge.isEmpty then completeServerCache
      else if completeServerCache=none ∧ subMerge.hasCompleteWriteAtPath []=false then none
      else some (subMerge.applyToNode (completeServerCache.getD .emptyNode))
  else
    let merge := t.visibleWrites.childCompoundWriteAtPath treePath
    if includeHiddenWrites=false ∧ merge.isEmpty=true then completeServerCache
    else if includeHiddenWrites=false ∧ completeServerCache=none ∧
        merge.hasCompleteWriteAtPath []=false then none
    else
      let filter (record : FWriteRecord Key Leaf) : Bool :=
        (record.visible || includeHiddenWrites) &&
          (writeIdsToExclude.all fun ids => !ids.contains record.writeId) &&
          (decide (record.path<+:treePath) || decide (treePath<+:record.path))
      some ((layerTreeFromWrites t.allWrites filter treePath).applyToNode
        (completeServerCache.getD .emptyNode))

theorem overlay_layerRecord (w : FCompoundWrite Key Leaf) (record : FWriteRecord Key Leaf) :
    (layerRecord [] w record).overlay=w.overlay.layer FCompoundWrite.graft record.pieces := by
  cases record with
  | overwrite writeId path newData visible =>
    simp only [layerRecord,List.nil_prefix,if_true,List.length_nil,List.drop_zero]
    exact w.overlay_addWrite newData path
  | merge writeId path changedChildren =>
    simp only [layerRecord,List.nil_prefix,if_true,List.length_nil,List.drop_zero]
    exact w.overlay_addCompoundWrite changedChildren path

@[simp] theorem filter_default (writes : List (FWriteRecord Key Leaf)) :
    writes.filter defaultFilter=writes := List.filter_true ..

theorem overlay_layerTree (writes : List (FWriteRecord Key Leaf)) :
    (layerTreeFromWrites writes defaultFilter []).overlay=
      Overlay.empty.layer FCompoundWrite.graft (writes.flatMap FWriteRecord.pieces) := by
  have hfold (w : FCompoundWrite Key Leaf) : (writes.foldl (layerRecord []) w).overlay=
      w.overlay.layer FCompoundWrite.graft (writes.flatMap FWriteRecord.pieces) := by
    induction writes generalizing w with
    | nil => rfl
    | cons record writes ih =>
      rw [List.foldl_cons,ih,overlay_layerRecord,List.flatMap_cons,Overlay.layer_append]
  rw [layerTreeFromWrites,filter_default,hfold,FCompoundWrite.overlay_emptyWrite]

theorem scan_shadowed (allWrites : List (FWriteRecord Key Leaf)) (w : FWriteRecord Key Leaf)
    (index n : Nat) (overlaps b : Bool) (h : scan allWrites w index n overlaps=(false,b)) :
    ∃r∈allWrites,r.containsPath w.path=true := by
  induction n generalizing overlaps with
  | zero => simp [scan] at h
  | succ i ih =>
    unfold scan at h
    split at h
    · exact ih overlaps h
    · rename_i currentWrite hcurrent
      split at h
      · split at h
        · rename_i hcontains
          exact ⟨currentWrite,List.mem_of_getElem? hcurrent,hcontains.2⟩
        · split at h
          · exact ih true h
          · exact ih overlaps h
      · exact ih overlaps h

theorem scan_rebuild (allWrites : List (FWriteRecord Key Leaf)) (w : FWriteRecord Key Leaf)
    (index n : Nat) (h : scan allWrites w index n false=(true,true)) :
    ∃r∈allWrites,w.path<+:r.path := by
  induction n with
  | zero => simp [scan] at h
  | succ i ih =>
    unfold scan at h
    split at h
    · exact ih h
    · rename_i currentWrite hcurrent
      split at h
      · split at h
        · simp at h
        · split at h
          · rename_i hpath
            exact ⟨currentWrite,List.mem_of_getElem? hcurrent,hpath⟩
          · exact ih h
      · exact ih h

theorem scan_overlaps (allWrites : List (FWriteRecord Key Leaf)) (w : FWriteRecord Key Leaf)
    (index n : Nat) (b : Bool) : scan allWrites w index n true≠(b,false) := by
  intro h
  induction n with
  | zero => simp [scan] at h
  | succ i ih =>
    unfold scan at h
    split at h
    · exact ih h
    · split at h
      · split at h
        · simp at h
        · split at h
          · exact ih h
          · exact ih h
      · exact ih h

theorem scan_apart (allWrites : List (FWriteRecord Key Leaf)) (w : FWriteRecord Key Leaf)
    (index n : Nat) (h : scan allWrites w index n false=(true,false)) (i : Nat) (hi : i<n)
    (r : FWriteRecord Key Leaf) (hr : allWrites[i]?=some r) (hvisible : r.visible=true) :
    ¬w.path<+:r.path ∧ (index ≤ i → r.containsPath w.path=false) := by
  induction n with
  | zero => omega
  | succ j ih =>
    unfold scan at h
    by_cases hij : i=j
    · subst hij
      simp only [hr,hvisible,if_true] at h
      split at h
      · simp at h
      · rename_i hno
        split at h
        · exact absurd h (scan_overlaps allWrites w index i true)
        · rename_i hpath
          refine ⟨hpath,?_⟩
          intro hindex
          simpa [hindex] using hno
    · have hlt : i<j := by omega
      split at h
      · exact ih h hlt
      · split at h
        · split at h
          · simp at h
          · split at h
            · exact absurd h (scan_overlaps allWrites w index j true)
            · exact ih h hlt
        · exact ih h hlt

theorem overlay_prune (t : FWriteTree Key Leaf) (w : FWriteRecord Key Leaf) :
    (t.prune w).visibleWrites.overlay=
      (w.pieces.map Prod.fst).foldl Overlay.clear t.visibleWrites.overlay := by
  cases w with
  | overwrite writeId path newData visible => exact t.visibleWrites.overlay_removeWriteAtPath path
  | merge writeId path changedChildren =>
    simp only [prune,FWriteRecord.pieces,List.map_map,List.foldl_map]
    generalize t.visibleWrites=visibleWrites
    induction changedChildren.enumerateWrites generalizing visibleWrites with
    | nil => rfl
    | cons x writes ih =>
      rw [List.foldl_cons,List.foldl_cons,ih,FCompoundWrite.overlay_removeWriteAtPath]
      rfl

theorem prune_allWrites (t : FWriteTree Key Leaf) (w : FWriteRecord Key Leaf) :
    (t.prune w).allWrites=t.allWrites := by
  cases w <;> rfl

theorem prune_lastWriteId (t : FWriteTree Key Leaf) (w : FWriteRecord Key Leaf) :
    (t.prune w).lastWriteId=t.lastWriteId := by
  cases w <;> rfl

theorem removeWriteId_isSome (t : FWriteTree Key Leaf) (w : FWriteRecord Key Leaf)
    (hw : w∈t.allWrites) : ∃x,t.removeWriteId w.writeId=some x := by
  have hindex : (t.allWrites.findIdx? fun record => record.writeId=w.writeId).isSome=true := by
    rw [List.findIdx?_isSome,List.any_eq_true]
    exact ⟨w,hw,by simp⟩
  obtain ⟨index,hindex⟩ := Option.isSome_iff_exists.mp hindex
  obtain ⟨hlt,_⟩ := List.findIdx?_eq_some_iff_getElem.mp hindex
  unfold removeWriteId
  rw [hindex]
  simp only [List.getElem?_eq_getElem hlt]
  split
  · split
    · exact ⟨_,rfl⟩
    · exact ⟨_,rfl⟩
    · exact ⟨_,rfl⟩
  · exact ⟨_,rfl⟩

/-- The last id stays, or is that of a write that is left. -/
theorem removeWriteId_lastWriteId (t u : FWriteTree Key Leaf) (writeId : Int) (b : Bool)
    (h : t.removeWriteId writeId=some (b,u)) : u.lastWriteId=t.lastWriteId ∨ u.lastWriteId= -1 ∨
      ∃x∈t.allWrites,u.lastWriteId=x.writeId := by
  unfold removeWriteId at h
  split at h
  · contradiction
  · rename_i index _
    split at h
    · contradiction
    · dsimp only at h
      split at h
      · split at h
        · cases h
          exact .inl rfl
        · cases h
          right
          simp only [resetTree]
          split
          · rename_i lastRecord hlast
            have hmem := List.mem_of_mem_eraseIdx (List.mem_of_getLast? hlast)
            exact .inr ⟨lastRecord,hmem,rfl⟩
          · exact .inl rfl
        · cases h
          exact .inl (prune_lastWriteId _ _)
      · cases h
        exact .inl rfl

/-- What becomes of the tree when the oldest write goes. -/
theorem removeWriteId_oldest (t u : FWriteTree Key Leaf) (w : FWriteRecord Key Leaf)
    (later : List (FWriteRecord Key Leaf)) (b : Bool) (hall : t.allWrites=w::later)
    (hvisible : w.visible=true) (h : t.removeWriteId w.writeId=some (b,u)) :
    u.allWrites=later ∧
      ((u.visibleWrites=t.visibleWrites ∧ ∃r∈later,r.containsPath w.path=true) ∨
        (u.visibleWrites=layerTreeFromWrites later defaultFilter [] ∧ ∃r∈later,w.path<+:r.path) ∨
        (u.visibleWrites.overlay=(w.pieces.map Prod.fst).foldl Overlay.clear t.visibleWrites.overlay ∧
          ∀r∈later,r.visible=true → ¬w.path<+:r.path ∧ r.containsPath w.path=false)) := by
  have hindex : t.allWrites.findIdx? (fun record => record.writeId=w.writeId)=some 0 := by
    simp [hall,List.findIdx?_cons]
  have hget : t.allWrites[0]?=some w := by simp [hall]
  have hrest : t.allWrites.eraseIdx 0=later := by simp [hall]
  unfold removeWriteId at h
  rw [hindex] at h
  simp only [hget,hrest,hvisible,if_true] at h
  split at h
  · rename_i b' hscan
    cases h
    exact ⟨rfl,.inl ⟨rfl,scan_shadowed later w 0 _ false b' hscan⟩⟩
  · rename_i hscan
    cases h
    exact ⟨rfl,.inr (.inl ⟨rfl,scan_rebuild later w 0 _ hscan⟩)⟩
  · rename_i hscan
    have hapart (r : FWriteRecord Key Leaf) (hr : r∈later) (hv : r.visible=true) :
        ¬w.path<+:r.path ∧ r.containsPath w.path=false := by
      obtain ⟨i,hi⟩ := List.getElem?_of_mem hr
      have hlt : i<later.length := (List.getElem?_eq_some_iff.mp hi).1
      obtain ⟨hpath,hcontains⟩ := scan_apart later w 0 later.length hscan i hlt r hi hv
      exact ⟨hpath,hcontains (Nat.zero_le i)⟩
    cases h
    exact ⟨prune_allWrites _ w,.inr (.inr ⟨overlay_prune _ w,hapart⟩)⟩

end FWriteTree

end ShareImage
