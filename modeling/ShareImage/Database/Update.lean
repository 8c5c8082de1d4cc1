import ShareImage.Database.Repo
import ShareImage.Database.Snapshot

namespace ShareImage.FSnapshot

open Framework

def pathWithString (string : String) : List String :=
  ((string.toList.splitOn '/').filter fun piece => !piece.isEmpty).map String.ofList

/-- `validateFrom:validUpdateDictionaryKey:withValue:`, for a key that does not write a priority. -/
def isValidUpdateDictionaryKey (key : String) : Bool := (pathWithString key).all isValidKey

/-- `compoundWriteFromDictionary:withValidationFrom:`; `none` where it throws. -/
def compoundWriteFromDictionary (values : Dictionary) : Option (FCompoundWrite String FLeaf) := do
  let nodes ← values.mapM fun (keyId,value) =>
    if isValidUpdateDictionaryKey keyId then
      (nodeFrom value 0).map fun node => (pathWithString keyId,node)
    else none
  FRepo.compoundWriteFromNodes nodes

def updateChildValues (r : FRepo String FLeaf) (path : List String) (values : Dictionary) :
    Option (FRepo String FLeaf) :=
  (compoundWriteFromDictionary values).bind fun merge => r.update path merge

/-- The node that the client makes of a value. -/
def node (value : AnyObject) : FNode String FLeaf := (nodeFrom value 0).getD .emptyNode

/-- What the changes of a table are to the repo, with the checks on what the client writes. -/
def change (path : List String) (r : FRepo String FLeaf) :
    Replica.Change String AnyObject → Option (FRepo String FLeaf)
  | .submit w => updateChildValues r path [(w.key,w.value.getD .null)]
  | .report w => r.change path node (.report w)
  | .accept => r.change path node .accept
  | .reject => r.change path node .reject

def machine (path : List String) : Machine (FRepo String FLeaf) (Replica.Change String AnyObject) :=
  ⟨change path⟩

mutual

/-- The value has no priorities and no server values in it. -/
def isPlain : AnyObject → Bool
  | .array items => itemsArePlain items
  | .dictionary entries => entriesArePlain entries
  | _ => true

def itemsArePlain : List AnyObject → Bool
  | [] => true
  | item::items => isPlain item && itemsArePlain items

def entriesArePlain : List (String × AnyObject) → Bool
  | [] => true
  | (key,value)::entries => !metadataKeys.contains key && isPlain value && entriesArePlain entries

end

/-- What the client writes with the change is plain, and the checks let it through. -/
def Passes : Replica.Change String AnyObject → Prop
  | .submit w => isValidKey w.key=true ∧
    ∃value,w.value=some value ∧ isPlain value=true ∧ (nodeFrom value 0).isSome=true
  | .report _ | .accept | .reject => True

/-- A key without slashes is a path of one piece. -/
theorem pathWithString_of_isValidKey (key : String) (h : isValidKey key=true) :
    pathWithString key=[key] := by
  obtain ⟨hne,hall⟩ := (Bool.and_eq_true ..).mp h
  have hnone : ∀c∈key.toList,(c == '/')=false := by
    intro c hc
    have hvalid := List.all_eq_true.mp hall c hc
    cases hslash : c == '/' with
    | false => rfl
    | true =>
      rw [beq_iff_eq.mp hslash] at hvalid
      contradiction
  have hsplit : key.toList.splitOn '/'=[key.toList] := List.splitOnP_eq_singleton hnone
  rw [pathWithString,hsplit,List.filter_cons_of_pos (by exact hne),List.filter_nil,List.map_cons,
    List.map_nil,String.ofList_toList]

theorem updateChildValues_one (r : FRepo String FLeaf) (path : List String) (key : String)
    (value : AnyObject) (hkey : isValidKey key=true) (hvalue : (nodeFrom value 0).isSome=true) :
    updateChildValues r path [(key,value)]=r.updateChildValues path [([key],node value)] := by
  obtain ⟨n,hn⟩ := Option.isSome_iff_exists.mp hvalue
  have hnode : node value=n := by rw [node,hn,Option.getD_some]
  have hpath := pathWithString_of_isValidKey key hkey
  have hvalid : isValidUpdateDictionaryKey key=true := by
    rw [isValidUpdateDictionaryKey,hpath]
    simp [hkey]
  simp [updateChildValues,FRepo.updateChildValues,compoundWriteFromDictionary,hvalid,hn,hpath,hnode]

theorem change_passes (path : List String) (r : FRepo String FLeaf)
    (c : Replica.Change String AnyObject) (h : Passes c) :
    change path r c=r.change path node c := by
  cases c with
  | submit w =>
    obtain ⟨hkey,value,hvalue,_,htaken⟩ := h
    rw [change,FRepo.change,hvalue]
    exact updateChildValues_one r path w.key value hkey htaken
  | report | accept | reject => rfl

/-- Where the checks let everything through they change nothing. -/
theorem run_passes (path : List String) (r : FRepo String FLeaf)
    (cs : List (Replica.Change String AnyObject)) (h : ∀c∈cs,Passes c) :
    (machine path).run r cs=(FRepo.machine path node).run r cs := by
  induction cs generalizing r with
  | nil => rfl
  | cons c cs ih =>
    rw [Machine.run_cons,Machine.run_cons]
    change (change path r c).bind _=(r.change path node c).bind _
    rw [change_passes path r c (h c List.mem_cons_self)]
    congr 1
    funext s
    exact ih s fun x hx => h x (List.mem_cons_of_mem c hx)

/-- With the checks on what is written, the client takes the same changes as the copy of the table
and gives the same to read at each key. -/
theorem updates_refine_replica (path : List String) (n : FNode String FLeaf)
    (table : AList fun _ : String => AnyObject) (hn : FRepo.Shows path node n table)
    (cs : List (Replica.Change String AnyObject)) (h : ∀c∈cs,Passes c) :
    Option.Rel (fun (r : FRepo String FLeaf) (t : Replica String AnyObject) =>
        ∀key,r.eventCache (path++[key])=some (FRepo.childNode node (t.get key)))
      ((machine path).run {serverCache := n} cs)
      ((⟨Replica.change⟩ : Machine _ _).run {server := table} cs) := by
  rw [run_passes path _ cs h]
  exact FRepo.repo_refines_replica hn cs

/-- Two writes of the client's own, one of another client, and answers to the two. -/
def ownAndOther : List (Replica.Change String AnyObject) :=
  [.submit ⟨"a",some (.string "ann")⟩,.submit ⟨"b",some (.string "bob")⟩,
    .report ⟨"c",some (.string "cid")⟩,.accept,.reject]

theorem updates_refine_replica_ownAndOther :
    ∃r t,(machine ["users"]).run {} ownAndOther=some r ∧
      (⟨Replica.change⟩ : Machine (Replica String AnyObject) _).run {server := ∅} ownAndOther
        =some t ∧
      ∀key,r.eventCache ["users",key]=some (FRepo.childNode node (t.get key)) := by
  have hn : FRepo.Shows ["users"] node .emptyNode ∅ :=
    ⟨fun s _ => FImmutableTree.empty_valueAtPath s,fun key => FNode.getChild_emptyNode _⟩
  have hpasses : ∀c∈ownAndOther,Passes c := by
    intro c hc
    simp only [ownAndOther,List.mem_cons,List.not_mem_nil,or_false] at hc
    rcases hc with rfl | rfl | rfl | rfl | rfl
    · exact ⟨rfl,_,rfl,rfl,rfl⟩
    · exact ⟨rfl,_,rfl,rfl,rfl⟩
    · trivial
    · trivial
    · trivial
  refine ⟨_,_,rfl,rfl,?_⟩
  have h : Option.Rel _ (some _) (some _) :=
    updates_refine_replica ["users"] .emptyNode ∅ hn ownAndOther hpasses
  cases h with
  | some hread => exact hread

end ShareImage.FSnapshot
