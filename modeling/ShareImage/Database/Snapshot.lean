import ShareImage.Database.Node
import ShareImage.Database.Utilities
import ShareImage.Framework.Decimal
import ShareImage.Model.User
import Mathlib.Data.String.Basic

namespace ShareImage

/-- The value of an `FLeafNode`; a server value is a dictionary with the key `.sv` alone. -/
inductive FLeaf where
  | null
  | bool (value : Bool)
  | number (value : ℚ)
  | string (value : String)
  | serverValue (value : AnyObject)

namespace FSnapshot

def kFirebaseMaxObjectDepth : Nat := 1000

def kFirebaseMaxLeafSize : Nat := 1024*1024*10

def kInvalidKeyCharacters : List Char := ['[',']','.','#','$','/']

def isValidKey (key : String) : Bool :=
  !key.toList.isEmpty && key.toList.all fun c => !kInvalidKeyCharacters.contains c

/-- The keys of a priority, a leaf's value and a server value. -/
def metadataKeys : List String := [".priority",".value",".sv"]

/-- `isValidLeafValue:withPath:`, with the leaf that is made; `none` also where it throws. -/
def leafValue : AnyObject → Option FLeaf
  | .null => some .null
  | .bool value => some (.bool value)
  | .number value => some (.number value)
  | .string value => if value.utf8ByteSize>kFirebaseMaxLeafSize then none else some (.string value)
  | .dictionary entries =>
    match entries.lookup ".sv" with
    | some value => if entries.length>1 then none else some (.serverValue value)
    | none => none
  | .array _ => none

/-- Only children that are not empty are kept. -/
def addChild (node : FNode String FLeaf) (key : String) (childNode : FNode String FLeaf) :
    FNode String FLeaf :=
  if childNode.isEmpty then node else node.updateImmediateChild key childNode

/-- Another one of the keys has the same place in their order. -/
def clashes (keys : List String) (key : String) : Bool :=
  keys.any fun k => k != key && FUtilities.compareKey k key==.eq

mutual

/-- `internalNodeFrom:priority:withValidationFrom:atDepth:path:` of a value without priorities;
`none` where it throws. -/
def nodeFrom : AnyObject → Nat → Option (FNode String FLeaf)
  | .null,depth => if depth>kFirebaseMaxObjectDepth then none else some .emptyNode
  | .bool value,depth => if depth>kFirebaseMaxObjectDepth then none else some (.leaf (.bool value))
  | .number value,depth =>
    if depth>kFirebaseMaxObjectDepth then none else some (.leaf (.number value))
  | .string value,depth =>
    if depth>kFirebaseMaxObjectDepth then none else (leafValue (.string value)).map .leaf
  | .array items,depth =>
    if depth>kFirebaseMaxObjectDepth then none else arrayNode items 0 (depth+1)
  | .dictionary entries,depth =>
    if depth>kFirebaseMaxObjectDepth then none
    else
      match entries.lookup ".value" with
      | some value => (leafValue value).map .leaf
      | none =>
        if (entries.lookup ".sv").isSome then (leafValue (.dictionary entries)).map .leaf
        else dictionaryNode entries (depth+1)

/-- The items from index `i` on. -/
def arrayNode : List AnyObject → Nat → Nat → Option (FNode String FLeaf)
  | [],_,_ => some .emptyNode
  | item::items,i,depth => do
    let childNode ← nodeFrom item depth
    let node ← arrayNode items (i+1) depth
    return addChild node (toString i) childNode

def dictionaryNode : List (String × AnyObject) → Nat → Option (FNode String FLeaf)
  | [],_ => some .emptyNode
  | (key,value)::entries,depth =>
    if metadataKeys.contains key || isValidKey key then
      if ['.']<+:key.toList then dictionaryNode entries depth
      else do
        let childNode ← nodeFrom value depth
        let node ← dictionaryNode entries depth
        -- no dictionary is made of keys with the same ordering
        if !childNode.isEmpty && clashes node.tree.children.keys key then none
        else return addChild node key childNode
    else none

end

def leafVal : FLeaf → AnyObject
  | .null => .null
  | .bool value => .bool value
  | .number value => .number value
  | .string value => .string value
  | .serverValue value => .dictionary [(".sv",value)]

def intForString (string : String) : Option Nat :=
  if !string.toList.isEmpty && string.toList.all Char.isDigit then
    some (Nat.ofDigitChars 10 string.toList 0)
  else none

/-- Leading zeroes that are not exactly `0` make a key a string. -/
def keyAsNum (key : String) : Option Nat :=
  match key.toList with
  | '0'::_::_ => none
  | _ => intForString key

/-- Whether all keys are integers, and the greatest one up to the first that is not. -/
def scanKeys (keys : List String) : Bool × Nat :=
  keys.foldl (fun (allIntegerKeys,maxKey) key =>
    if allIntegerKeys then
      match keyAsNum key with
      | some keyAsInt => (true,if keyAsInt>maxKey then keyAsInt else maxKey)
      | none => (false,maxKey)
    else (allIntegerKeys,maxKey)) (true,0)

/-- `valForExport:` of an `FChildrenNode`, for a snapshot, from the values of the children. -/
def valForExport (obj : List (String × AnyObject)) : AnyObject :=
  if obj.isEmpty then .null
  else
    let (allIntegerKeys,maxKey) := scanKeys (obj.map Prod.fst)
    if allIntegerKeys && decide (maxKey<2*obj.length) then
      .array ((List.range (maxKey+1)).map fun i => (obj.lookup (toString i)).getD .null)
    else .dictionary obj

def nodeVal (value : Option FLeaf) (obj : List (String × AnyObject)) : AnyObject :=
  match value with
  | some leaf => leafVal leaf
  | none => valForExport obj

/-- The values of the children, by key. -/
def childVals : FChildren String FLeaf → List (String × AnyObject)
  | .nil => []
  | .cons key value children rest => (key,nodeVal value (childVals children))::childVals rest

def val (n : FNode String FLeaf) : AnyObject := nodeVal n.tree.value (childVals n.tree.children)

theorem scanKeys_concat (keys : List String) (key : String) :
    scanKeys (keys++[key])=
      if (scanKeys keys).1 then
        match keyAsNum key with
        | some i => (true,if i>(scanKeys keys).2 then i else (scanKeys keys).2)
        | none => (false,(scanKeys keys).2)
      else scanKeys keys := by
  unfold scanKeys
  rw [List.foldl_append]
  rfl

theorem scanKeys_integers (keys : List String) (h : (scanKeys keys).1=true) :
    ∀key∈keys,∃i,keyAsNum key=some i ∧ i ≤ (scanKeys keys).2 := by
  induction keys using List.reverseRecOn with
  | nil => simp
  | append_singleton keys key ih =>
    rw [scanKeys_concat] at h ⊢
    split at h
    · rename_i hkeys
      rw [if_pos hkeys]
      split at h
      · rename_i i hi
        intro other hother
        rcases List.mem_append.mp hother with hold | hnew
        · obtain ⟨j,hj,hle⟩ := ih hkeys other hold
          refine ⟨j,hj,?_⟩
          dsimp only
          split <;> omega
        · obtain rfl := List.mem_singleton.mp hnew
          refine ⟨i,hi,?_⟩
          dsimp only
          split <;> omega
      · contradiction
    · contradiction

theorem lookup_childVals (c : FChildren String FLeaf) (key : String) :
    (childVals c).lookup key=(c.get key).map fun t => nodeVal t.value (childVals t.children) := by
  induction c with
  | nil => rfl
  | cons k value children rest _ ih =>
    rw [childVals,List.lookup_cons,FChildren.get]
    by_cases hk : key=k
    · subst hk
      simp
    · have hbeq : (key==k)=false := by simpa using hk
      rw [if_neg hk,←ih,hbeq]

theorem key_of_get (c : FChildren String FLeaf) (key : String) (t : FImmutableTree String FLeaf)
    (h : c.get key=some t) : key∈(childVals c).map Prod.fst := by
  have hlookup := lookup_childVals c key
  rw [h] at hlookup
  obtain ⟨before,after,hsplit,_⟩ := List.lookup_eq_some_iff.mp hlookup
  rw [hsplit]
  simp

theorem getImmediateChild_addChild (n x : FNode String FLeaf) (key k : String) :
    (addChild n key x).getImmediateChild k=
      if k=key ∧ x.isEmpty=false then x else n.getImmediateChild k := by
  unfold addChild
  cases hempty : x.isEmpty with
  | true => simp
  | false =>
    simp only [Bool.false_eq_true,if_false,and_true]
    exact n.getImmediateChild_updateImmediateChild x k key

theorem isLeafNode_addChild (n x : FNode String FLeaf) (key : String) (h : n.isLeafNode=false) :
    (addChild n key x).isLeafNode=false := by
  unfold addChild
  split
  · exact h
  · unfold FNode.updateImmediateChild
    split
    · rw [h]
      rfl
    · rfl

/-- Nodes with children are told apart by these. -/
theorem ext_children (n m : FNode String FLeaf) (hn : n.isLeafNode=false) (hm : m.isLeafNode=false)
    (h : ∀key,n.getImmediateChild key=m.getImmediateChild key) : n=m := by
  apply FNode.ext_leaves
  intro q
  cases q with
  | nil =>
    have hnone (x : FNode String FLeaf) (hx : x.isLeafNode=false) : x.tree.value=none := by
      simpa [FNode.isLeafNode] using hx
    rw [FImmutableTree.valueAtPath_nil,FImmutableTree.valueAtPath_nil,hnone n hn,hnone m hm]
  | cons k q =>
    rw [FImmutableTree.valueAtPath_cons,FImmutableTree.valueAtPath_cons]
    exact congrArg (fun x => x.tree.valueAtPath q) (h k)

/-- No two keys have the same place in the order of keys. -/
def Apart : FChildren String FLeaf → Prop
  | .nil => True
  | .cons key _ _ rest => clashes rest.keys key=false ∧ Apart rest

theorem head_of_isValidKey (key : String) (h : isValidKey key=true) : ¬['.']<+:key.toList := by
  rintro ⟨rest,hrest⟩
  rw [isValidKey,←hrest] at h
  simp [kInvalidKeyCharacters] at h

/-- What the database stores at a leaf. -/
def StorableLeaf : FLeaf → Prop
  | .null => False
  | .string value => value.utf8ByteSize ≤ kFirebaseMaxLeafSize
  | _ => True

/-- Children that can be stored, where they are at the depth. -/
def Storable : FChildren String FLeaf → Nat → Prop
  | .nil,_ => True
  | .cons key value children rest,depth => isValidKey key=true ∧ clashes rest.keys key=false ∧
    depth ≤ kFirebaseMaxObjectDepth ∧ (∀leaf∈value,StorableLeaf leaf) ∧
    Storable children (depth+1) ∧ Storable rest depth

theorem nodeFrom_leafVal (leaf : FLeaf) (depth : Nat) (hdepth : depth ≤ kFirebaseMaxObjectDepth)
    (h : StorableLeaf leaf) : nodeFrom (leafVal leaf) depth=some (.leaf leaf) := by
  have hno : ¬depth>kFirebaseMaxObjectDepth := not_lt.mpr hdepth
  cases leaf with
  | null => contradiction
  | bool value => rw [leafVal,nodeFrom,if_neg hno]
  | number value => rw [leafVal,nodeFrom,if_neg hno]
  | string value =>
    have hsize : ¬value.utf8ByteSize>kFirebaseMaxLeafSize := not_lt.mpr h
    rw [leafVal,nodeFrom,if_neg hno,leafValue,if_neg hsize]
    rfl
  | serverValue value =>
    rw [leafVal,nodeFrom,if_neg hno]
    rfl

theorem Storable.apart {c : FChildren String FLeaf} {depth : Nat} (h : Storable c depth) :
    Apart c := by
  induction c with
  | nil => trivial
  | cons k value children rest _ ih =>
    obtain ⟨_,hclash,_,_,_,hrest⟩ := h
    exact ⟨hclash,ih hrest⟩

section Strings

/-- A dictionary of strings, as it is written. -/
def strings (d : List (String × String)) : List (String × AnyObject) :=
  d.map fun e => (e.1,.string e.2)

theorem lookup_strings (d : List (String × String)) (key : String) :
    (strings d).lookup key=(d.lookup key).map .string := by
  induction d with
  | nil => rfl
  | cons e d ih =>
    rw [strings,List.map_cons,List.lookup_cons,List.lookup_cons]
    cases key==e.1 with
    | true => rfl
    | false => exact ih

variable {d : List (String × String)}

/-- A node with the strings as its children has no others. -/
theorem get_strings (n : FNode String FLeaf) (hchild : ∀key,n.getImmediateChild key=
      ((d.lookup key).map fun text => FNode.leaf (.string text)).getD .emptyNode) (key : String) :
    n.tree.children.get key=(d.lookup key).map fun text => (FNode.leaf (.string text)).tree := by
  have hkey : (n.tree.children.get key).getD .empty=_ := congrArg FNode.tree (hchild key)
  cases hnode : n.tree.children.get key with
  | none =>
    cases htext : d.lookup key with
    | none => rfl
    | some text => simp [hnode,htext,FNode.leaf,FImmutableTree.empty] at hkey
  | some t =>
    rw [hnode,Option.getD_some] at hkey
    cases htext : d.lookup key with
    | none =>
      have hne := (n.canonical.children.get key t hnode).2
      rw [hkey,htext] at hne
      contradiction
    | some text =>
      rw [hkey,htext]
      rfl

variable (hkeys : ∀e∈d,isValidKey e.1=true)
  (hapart : ∀e∈d,∀x∈d,FUtilities.compareKey e.1 x.1=.eq → e.1=x.1)
  (hsize : ∀e∈d,e.2.utf8ByteSize ≤ kFirebaseMaxLeafSize)
include hkeys

theorem lookup_of_invalid (key : String) (h : isValidKey key=false) :
    (strings d).lookup key=none := by
  rw [lookup_strings]
  cases hlookup : d.lookup key with
  | none => rfl
  | some text =>
    obtain ⟨before,after,rfl,_⟩ := List.lookup_eq_some_iff.mp hlookup
    have hkey := hkeys (key,text) (by simp)
    rw [h] at hkey
    contradiction

include hapart hsize

theorem dictionaryNode_strings (depth : Nat) (hdepth : depth ≤ kFirebaseMaxObjectDepth) :
    ∃n,dictionaryNode (strings d) depth=some n ∧ n.isLeafNode=false ∧ ∀key,n.getImmediateChild key=
      ((d.lookup key).map fun text => FNode.leaf (.string text)).getD .emptyNode := by
  induction d with
  | nil => exact ⟨.emptyNode,rfl,rfl,fun _ => rfl⟩
  | cons e d ih =>
    obtain ⟨key,text⟩ := e
    have hvalid : isValidKey key=true := hkeys (key,text) List.mem_cons_self
    obtain ⟨n,hn,hleaf,hchild⟩ := ih (fun x hx => hkeys x (List.mem_cons_of_mem _ hx))
      (fun x hx y hy => hapart x (List.mem_cons_of_mem _ hx) y (List.mem_cons_of_mem _ hy))
      fun x hx => hsize x (List.mem_cons_of_mem _ hx)
    have hfree : clashes n.tree.children.keys key=false := by
      apply List.any_eq_false.mpr
      intro k hk
      have hpresent := (n.tree.children.mem_keys k).mp hk
      rw [get_strings n hchild,Option.isSome_map] at hpresent
      obtain ⟨other,hother⟩ := Option.isSome_iff_exists.mp hpresent
      obtain ⟨before,after,rfl,_⟩ := List.lookup_eq_some_iff.mp hother
      have hsame := hapart (k,other) (by simp) (key,text) List.mem_cons_self
      simpa using mt hsame
    have htext : nodeFrom (.string text) depth=some (.leaf (.string text)) :=
      nodeFrom_leafVal (.string text) depth hdepth (hsize (key,text) List.mem_cons_self)
    refine ⟨addChild n key (.leaf (.string text)),?_,isLeafNode_addChild n _ key hleaf,?_⟩
    · change dictionaryNode ((key,.string text)::strings d) depth=_
      rw [dictionaryNode,if_pos (by simp [hvalid]),if_neg (head_of_isValidKey key hvalid),htext,hn]
      simp [hfree]
    · intro k
      rw [getImmediateChild_addChild,List.lookup_cons]
      by_cases hk : k=key
      · subst hk
        rw [if_pos ⟨rfl,rfl⟩,beq_self_eq_true]
        rfl
      · have hbeq : (k==key)=false := by simpa using hk
        rw [if_neg fun heq => hk heq.1,hbeq]
        exact hchild k

/-- A snapshot of a dictionary of strings has the same entries, if not all keys are integers. -/
theorem val_strings (hstring : ∃e∈d,keyAsNum e.1=none) :
    ∃n entries,nodeFrom (.dictionary (strings d)) 0=some n ∧ val n=.dictionary entries ∧
      ∀key,entries.lookup key=(strings d).lookup key := by
  obtain ⟨n,hn,hleaf,hchild⟩ := dictionaryNode_strings hkeys hapart hsize 1 (by decide)
  have hlookup (key : String) : (childVals n.tree.children).lookup key=(strings d).lookup key := by
    rw [lookup_childVals,lookup_strings,get_strings n hchild,Option.map_map]
    rfl
  refine ⟨n,childVals n.tree.children,?_,?_,hlookup⟩
  · rw [nodeFrom,if_neg (by decide),lookup_of_invalid hkeys ".value" rfl,
      lookup_of_invalid hkeys ".sv" rfl]
    exact hn
  · obtain ⟨⟨key,text⟩,hmem,hnone⟩ := hstring
    have hpresent : key∈(childVals n.tree.children).map Prod.fst := by
      cases htext : d.lookup key with
      | none =>
        have hall := List.lookup_eq_none_iff.mp htext (key,text) hmem
        simp at hall
      | some text => exact key_of_get _ key _ (by rw [get_strings n hchild,htext]; rfl)
    have hscan : (scanKeys ((childVals n.tree.children).map Prod.fst)).1=false := by
      by_contra hall
      obtain ⟨i,hi,_⟩ := scanKeys_integers _ ((Bool.not_eq_false _).mp hall) key hpresent
      rw [hnone] at hi
      contradiction
    have hnonempty : (childVals n.tree.children).isEmpty=false := by
      rw [List.isEmpty_eq_false_iff]
      rintro hnil
      rw [hnil] at hpresent
      contradiction
    have hvalue : n.tree.value=none := by simpa [FNode.isLeafNode] using hleaf
    rw [val,hvalue,nodeVal,valForExport,hnonempty]
    simp [hscan]

end Strings

end FSnapshot

end ShareImage
