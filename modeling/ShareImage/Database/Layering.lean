import ShareImage.Database.WriteTree
import Mathlib.Data.String.Basic

namespace ShareImage

open Framework

namespace FWriteTree

variable {Key Leaf : Type} [LinearOrder Key]

/-- A visible write, or the server's answer to the oldest one that waits for it. -/
inductive Event (Key Leaf : Type) [LinearOrder Key] where
  | overwrite (path : List Key) (newData : FNode Key Leaf) (writeId : Int)
  | merge (path : List Key) (changedChildren : FCompoundWrite Key Leaf) (writeId : Int)
  | answer
  | removeAll

def machine : Machine (FWriteTree Key Leaf) (Event Key Leaf) where
  step t
    | .overwrite path newData writeId => t.addOverwriteAtPath path newData writeId true
    | .merge path changedChildren writeId => t.addMergeAtPath path changedChildren writeId
    | .answer =>
      match t.allWrites with
      | [] => none
      | w::_ => (t.removeWriteId w.writeId).map Prod.snd
    | .removeAll => some t.removeAllWrites

/-- The write can go: the tree is rebuilt for a later write at its path or below, a later one covers
its path, or all that was written on it or below it has gone into a write above. -/
def Removable (w : FWriteRecord Key Leaf) (later : List (FWriteRecord Key Leaf)) : Prop :=
  (∃r∈later,w.path<+:r.path) ∨ (∃r∈later,r.containsPath w.path=true) ∨
    ∀x∈w.pieces,(∃y∈later.flatMap FWriteRecord.pieces,y.1<+:x.1 ∧ y.1≠x.1) ∨
      ∀y∈later.flatMap FWriteRecord.pieces,¬x.1<+:y.1

instance (w : FWriteRecord Key Leaf) (later : List (FWriteRecord Key Leaf)) :
    Decidable (Removable w later) :=
  inferInstanceAs (Decidable ((∃r∈later,w.path<+:r.path) ∨ _ ∨ _))

def Answerable (t : FWriteTree Key Leaf) : Event Key Leaf → Prop
  | .answer =>
    match t.allWrites with
    | [] => True
    | w::later => Removable w later
  | _ => True

instance (t : FWriteTree Key Leaf) (e : Event Key Leaf) : Decidable (t.Answerable e) :=
  match e,t with
  | .overwrite ..,_ => isTrue trivial
  | .merge ..,_ => isTrue trivial
  | .removeAll,_ => isTrue trivial
  | .answer,⟨_,[],_⟩ => isTrue trivial
  | .answer,⟨_,w::later,_⟩ => inferInstanceAs (Decidable (Removable w later))

/-- The tree is what its pending writes make, one over the other. -/
def Layered (t : FWriteTree Key Leaf) : Prop :=
  t.visibleWrites=layerTreeFromWrites t.allWrites defaultFilter []

def AllVisible (t : FWriteTree Key Leaf) : Prop := ∀r∈t.allWrites,r.visible=true

theorem Layered.add {t u : FWriteTree Key Leaf} (h : t.Layered) (r : FWriteRecord Key Leaf)
    (hall : u.allWrites=t.allWrites++[r])
    (hu : u.visibleWrites=layerRecord [] t.visibleWrites r) : u.Layered := by
  rw [Layered,hu,hall,h]
  simp [layerTreeFromWrites,-List.filter_append]

theorem Layered.overlay {t : FWriteTree Key Leaf} (h : t.Layered) (w : FWriteRecord Key Leaf)
    (later : List (FWriteRecord Key Leaf)) (hall : t.allWrites=w::later) :
    t.visibleWrites.overlay=
      Overlay.empty.layer FCompoundWrite.graft (w.pieces++later.flatMap FWriteRecord.pieces) := by
  rw [h,overlay_layerTree,hall,List.flatMap_cons]

/-- The oldest write leaves the tree as the others make it exactly when it can go. -/
theorem layered_remove_iff (t u : FWriteTree Key Leaf) (w : FWriteRecord Key Leaf)
    (later : List (FWriteRecord Key Leaf)) (b : Bool) (hvisible : t.AllVisible) (h : t.Layered)
    (hall : t.allWrites=w::later) (hu : t.removeWriteId w.writeId=some (b,u)) :
    u.Layered ↔ Removable w later := by
  have hw : w.visible=true := hvisible w (by simp [hall])
  have hlater (r : FWriteRecord Key Leaf) (hr : r∈later) : r.visible=true :=
    hvisible r (by simp [hall,hr])
  have hold := h.overlay w later hall
  obtain ⟨hrest,hcases⟩ := removeWriteId_oldest t u w later b hall hw hu
  rw [Layered,hrest]
  rcases hcases with ⟨hsame,r,hr,hcontains⟩ | ⟨hreset,r,hr,hpath⟩ | ⟨hpruned,hapart⟩
  · -- a later write covers all that this one has written
    refine iff_of_true ?_ (.inr (.inl ⟨r,hr,hcontains⟩))
    apply FCompoundWrite.overlay_injective
    rw [hsame,overlay_layerTree,hold]
    obtain ⟨y,hy,hyw⟩ := (r.containsPath_iff w.path).mp hcontains
    exact Overlay.layer_shadowed FCompoundWrite.graft_nil w.path w.pieces _ w.path_le_pieces
      ⟨y,List.mem_flatMap.mpr ⟨r,hr,hy⟩,hyw⟩
  · exact iff_of_true hreset (.inl ⟨r,hr,hpath⟩)
  · have hcleared : _ ↔ _ := @Overlay.layer_cleared_iff _ _ FCompoundWrite.graft w.pieces
      (later.flatMap FWriteRecord.pieces)
    rw [Removable,or_iff_right (fun ⟨r,hr,hpath⟩ => (hapart r hr (hlater r hr)).1 hpath),
      or_iff_right (fun ⟨r,hr,hcontains⟩ => by simp [(hapart r hr (hlater r hr)).2] at hcontains),
      ←hcleared,←hold,←hpruned,←overlay_layerTree]
    exact ⟨congrArg FCompoundWrite.overlay,FCompoundWrite.overlay_injective _ _⟩

theorem machine_answer (t u : FWriteTree Key Leaf) (h : machine.step t .answer=some u) :
    ∃w later b,t.allWrites=w::later ∧ t.removeWriteId w.writeId=some (b,u) := by
  simp only [machine] at h
  split at h
  · contradiction
  · rename_i w later hall
    obtain ⟨⟨b,v⟩,hv,rfl⟩ := Option.map_eq_some_iff.mp h
    exact ⟨w,later,b,hall,hv⟩

/-- Where a write is made or the writes are dropped, and what the tree is then. -/
theorem machine_other (t u : FWriteTree Key Leaf) (e : Event Key Leaf) (he : e≠.answer)
    (h : machine.step t e=some u) :
    (∃r,r.visible=true ∧ u.allWrites=t.allWrites++[r] ∧
      u.visibleWrites=layerRecord [] t.visibleWrites r) ∨
      (u.allWrites=[] ∧ u.visibleWrites=.emptyWrite) := by
  cases e with
  | overwrite path newData writeId =>
    simp only [machine,addOverwriteAtPath] at h
    split at h
    · cases h
      exact .inl ⟨.overwrite writeId path newData true,rfl,rfl,rfl⟩
    · contradiction
  | merge path changedChildren writeId =>
    simp only [machine,addMergeAtPath] at h
    split at h
    · cases h
      exact .inl ⟨.merge writeId path changedChildren,rfl,rfl,rfl⟩
    · contradiction
  | answer => contradiction
  | removeAll =>
    cases h
    exact .inr ⟨rfl,rfl⟩

theorem AllVisible.step {t u : FWriteTree Key Leaf} (h : t.AllVisible) (e : Event Key Leaf)
    (hu : machine.step t e=some u) : u.AllVisible := by
  by_cases he : e=.answer
  · subst he
    obtain ⟨w,later,b,hall,hremove⟩ := machine_answer t u hu
    obtain ⟨hrest,_⟩ := removeWriteId_oldest t u w later b hall (h w (by simp [hall])) hremove
    intro r hr
    rw [hrest] at hr
    exact h r (by simp [hall,hr])
  · intro r hr
    rcases machine_other t u e he hu with ⟨x,hx,hall,_⟩ | ⟨hall,_⟩
    · rw [hall] at hr
      rcases List.mem_append.mp hr with hr | hr
      · exact h r hr
      · exact List.mem_singleton.mp hr ▸ hx
    · simp [hall] at hr

theorem layered_step_iff (t u : FWriteTree Key Leaf) (e : Event Key Leaf)
    (hvisible : t.AllVisible) (h : t.Layered) (hu : machine.step t e=some u) :
    u.Layered ↔ t.Answerable e := by
  by_cases he : e=.answer
  · subst he
    obtain ⟨w,later,b,hall,hremove⟩ := machine_answer t u hu
    rw [layered_remove_iff t u w later b hvisible h hall hremove]
    simp [Answerable,hall]
  · have hother : t.Answerable e := by
      cases e with
      | answer => contradiction
      | _ => trivial
    refine iff_of_true ?_ hother
    rcases machine_other t u e he hu with ⟨r,_,hall,hwrites⟩ | ⟨hall,hwrites⟩
    · exact h.add r hall hwrites
    · rw [Layered,hall,hwrites]
      rfl

theorem run_layered (es : List (Event Key Leaf)) (t : FWriteTree Key Leaf)
    (h : machine.run {} es=some t) (hes : machine.Meets Answerable {} es) : t.Layered :=
  (machine.run_invariant_of_meets Answerable (fun t => t.AllVisible ∧ t.Layered)
    (fun s e t hs hc he => ⟨hs.1.step e he,(layered_step_iff s t e hs.1 hs.2 he).mpr hc⟩) {} t es
    ⟨by simp [AllVisible],rfl⟩ hes h).2

/-- The tree is at all times what its pending writes make exactly when each answered write can go. -/
theorem layered_throughout_iff (es : List (Event Key Leaf)) (t : FWriteTree Key Leaf)
    (h : machine.run {} es=some t) :
    (∀pre post u,es=pre++post → machine.run {} pre=some u →
      u.visibleWrites=layerTreeFromWrites u.allWrites defaultFilter []) ↔
      machine.Meets Answerable {} es :=
  machine.meets_iff_throughout Answerable AllVisible Layered (fun _ e _ hs he => hs.step e he)
    (fun s e t hs hp he => layered_step_iff s t e hs hp he) {} t es (by simp [AllVisible]) rfl h

/-- Two users are written, the second one twice, and the server answers the first. -/
def twoUsers : List (Event String String) :=
  [.merge ["users"] (FCompoundWrite.emptyWrite.addWrite (.leaf "ann") ["a"]) 0,
    .merge ["users"] (FCompoundWrite.emptyWrite.addWrite (.leaf "bob") ["b"]) 1,
    .overwrite ["users","b"] (.leaf "ben") 2,.answer]

/-- A user is written, then a name below it from above, and the server answers the first. -/
def nameBelow : List (Event String String) :=
  [.overwrite ["users","a"] (.leaf "ann") 0,
    .merge ["users"] (FCompoundWrite.emptyWrite.addWrite (.leaf "Ann") ["a","name"]) 1,.answer]

theorem layered_throughout_users :
    (∀pre post u,twoUsers=pre++post → machine.run {} pre=some u →
      u.visibleWrites=layerTreeFromWrites u.allWrites defaultFilter []) ∧
    ¬∀pre post u,nameBelow=pre++post → machine.run {} pre=some u →
      u.visibleWrites=layerTreeFromWrites u.allWrites defaultFilter [] := by
  constructor
  · exact (layered_throughout_iff twoUsers _ rfl).mpr (by decide)
  · intro h
    have hmeets := (layered_throughout_iff nameBelow _ rfl).mp h
    revert hmeets
    decide

end FWriteTree

end ShareImage
