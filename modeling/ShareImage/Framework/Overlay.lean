import Mathlib.Data.List.Basic
import Mathlib.Data.List.Infix

namespace Framework

/-- Values laid over a tree, at paths none of which is below another. -/
@[ext] structure Overlay (Key Value : Type*) where
  read : List Key → Option Value
  apart : ∀p q value,read p=some value → p<+:q → q≠p → read q=none

namespace Overlay

open Classical

variable {Key Value : Type*}

def empty : Overlay Key Value := ⟨fun _ => none,fun _ _ _ h => by contradiction⟩

/-- A value lies at the path or above it. -/
def Covers (o : Overlay Key Value) (p : List Key) : Prop := ∃s value,s<+:p ∧ o.read s=some value

/-- A value is laid at the path. It is grafted onto the one that covers the path, if any, and else
takes the place of all that is below. -/
noncomputable def put (graft : Value → List Key → Value → Value) (o : Overlay Key Value)
    (p : List Key) (x : Value) : Overlay Key Value where
  read q :=
    if o.Covers p then
      if q<+:p then (o.read q).map fun value => graft value (p.drop q.length) x else o.read q
    else if q=p then some x else if p<+:q then none else o.read q
  apart := by
    intro r q value hr hrq hne
    by_cases hc : o.Covers p
    · simp only [if_pos hc] at hr ⊢
      have hold : ∃old,o.read r=some old := by
        split at hr
        · obtain ⟨old,hold,_⟩ := Option.map_eq_some_iff.mp hr
          exact ⟨old,hold⟩
        · exact ⟨value,hr⟩
      obtain ⟨old,hold⟩ := hold
      have hnone : o.read q=none := o.apart r q old hold hrq hne
      rw [hnone]
      split <;> rfl
    · simp only [if_neg hc] at hr ⊢
      by_cases hrp : r=p
      · subst hrp
        rw [if_neg hne,if_pos hrq]
      · rw [if_neg hrp] at hr
        split at hr
        · contradiction
        · have hqp : q≠p := by
            intro hqp
            exact hc ⟨r,value,hqp ▸ hrq,hr⟩
          rw [if_neg hqp]
          split
          · rfl
          · exact o.apart r q value hr hrq hne

/-- What is at the path or below it is taken away. -/
noncomputable def clear (o : Overlay Key Value) (p : List Key) : Overlay Key Value where
  read q := if p<+:q then none else o.read q
  apart := by
    intro r q value hr hrq hne
    split at hr
    · contradiction
    · split
      · rfl
      · exact o.apart r q value hr hrq hne

theorem clear_read (o : Overlay Key Value) (p q : List Key) :
    (o.clear p).read q=if p<+:q then none else o.read q := rfl

variable {graft : Value → List Key → Value → Value}

theorem put_covered (o : Overlay Key Value) (p q : List Key) (x : Value) (h : o.Covers p) :
    (o.put graft p x).read q=
      if q<+:p then (o.read q).map fun value => graft value (p.drop q.length) x else o.read q := by
  simp only [put,if_pos h]

theorem put_free (o : Overlay Key Value) (p q : List Key) (x : Value) (h : ¬o.Covers p) :
    (o.put graft p x).read q=if q=p then some x else if p<+:q then none else o.read q := by
  simp only [put,if_neg h]

/-- Of the values that cover a path there is one. -/
theorem covering_unique (o : Overlay Key Value) (p r s : List Key) (x y : Value) (hr : r<+:p)
    (hs : s<+:p) (hrx : o.read r=some x) (hsy : o.read s=some y) : r=s := by
  by_contra hne
  rcases List.prefix_or_prefix_of_prefix hr hs with hrs | hsr
  · have hnone := o.apart r s x hrx hrs (Ne.symm hne)
    rw [hsy] at hnone
    contradiction
  · have hnone := o.apart s r y hsy hsr hne
    rw [hrx] at hnone
    contradiction

/-- Where a value lies after one has been laid. -/
theorem read_put_some (o : Overlay Key Value) (p q : List Key) (x value : Value)
    (h : (o.put graft p x).read q=some value) : q=p ∨ ∃old,o.read q=some old := by
  by_cases hc : o.Covers p
  · rw [o.put_covered p q x hc] at h
    split at h
    · obtain ⟨old,hold,_⟩ := Option.map_eq_some_iff.mp h
      exact .inr ⟨old,hold⟩
    · exact .inr ⟨value,h⟩
  · rw [o.put_free p q x hc] at h
    split at h
    · exact .inl ‹_›
    · split at h
      · contradiction
      · exact .inr ⟨value,h⟩

/-- A path that covers nothing has no values on it. -/
theorem read_of_not_covers (o : Overlay Key Value) (p q : List Key) (h : ¬o.Covers p)
    (hq : q<+:p) : o.read q=none := by
  cases hread : o.read q with
  | none => rfl
  | some value => exact absurd ⟨q,value,hq,hread⟩ h

theorem covers_congr (o u : Overlay Key Value) (p : List Key)
    (h : ∀q,q<+:p → o.read q=u.read q) : o.Covers p ↔ u.Covers p := by
  constructor
  · rintro ⟨s,value,hs,hread⟩
    exact ⟨s,value,hs,(h s hs).symm.trans hread⟩
  · rintro ⟨s,value,hs,hread⟩
    exact ⟨s,value,hs,(h s hs).trans hread⟩

/-- Away from the path, where nothing is laid below it, a value changes only what is above. -/
theorem put_outside (o : Overlay Key Value) (p r q : List Key) (x : Value) (hr : p<+:r)
    (hq : ¬p<+:q) : (o.put graft r x).read q=
      if q<+:r then (o.read q).map fun value => graft value (r.drop q.length) x else o.read q := by
  by_cases hc : o.Covers r
  · exact o.put_covered r q x hc
  · have hqr : q≠r := by
      intro hqr
      exact hq (hqr ▸ hr)
    have hrq : ¬r<+:q := fun hrq => hq (hr.trans hrq)
    rw [o.put_free r q x hc,if_neg hqr,if_neg hrq]
    split
    · rename_i hle
      rw [o.read_of_not_covers r q hc hle]
      rfl
    · rfl

/-- Nothing is left below a value that is laid. -/
theorem put_below (o : Overlay Key Value) (p q : List Key) (x : Value) (hq : p<+:q) (hne : q≠p) :
    (o.put graft p x).read q=none := by
  by_cases hc : o.Covers p
  · have hpq : ¬q<+:p := fun hqp => hne (hqp.eq_of_length (le_antisymm hqp.length_le hq.length_le))
    rw [o.put_covered p q x hc,if_neg hpq]
    obtain ⟨s,value,hs,hread⟩ := hc
    have hqs : q≠s := by
      intro hqs
      exact hpq (hqs ▸ hs)
    exact o.apart s q value hread (hs.trans hq) hqs
  · rw [o.put_free p q x hc,if_neg hne,if_pos hq]

theorem put_covers (o : Overlay Key Value) (p : List Key) (x : Value) :
    (o.put graft p x).Covers p := by
  by_cases hc : o.Covers p
  · obtain ⟨s,value,hs,hread⟩ := hc
    refine ⟨s,graft value (p.drop s.length) x,hs,?_⟩
    rw [o.put_covered p s x ⟨s,value,hs,hread⟩,if_pos hs,hread]
    rfl
  · exact ⟨p,x,List.prefix_refl p,by rw [o.put_free p p x hc,if_pos rfl]⟩

theorem Covers.put {o : Overlay Key Value} {p : List Key} (h : o.Covers p) (r : List Key)
    (x : Value) : (o.put graft r x).Covers p := by
  obtain ⟨s,value,hs,hread⟩ := h
  by_cases hc : o.Covers r
  · by_cases hsr : s<+:r
    · refine ⟨s,graft value (r.drop s.length) x,hs,?_⟩
      rw [o.put_covered r s x hc,if_pos hsr,hread]
      rfl
    · exact ⟨s,value,hs,by rw [o.put_covered r s x hc,if_neg hsr,hread]⟩
  · by_cases hrs : r<+:s
    · exact ⟨r,x,hrs.trans hs,by rw [o.put_free r r x hc,if_pos rfl]⟩
    · have hne : s≠r := fun hsr => hrs (hsr ▸ List.prefix_refl s)
      exact ⟨s,value,hs,by rw [o.put_free r s x hc,if_neg hne,if_neg hrs,hread]⟩

/-- The overlays are the same but for what is at the paths and below them. -/
def Agrees (paths : Set (List Key)) (o u : Overlay Key Value) : Prop :=
  ∀q,(∀p∈paths,¬p<+:q) → o.read q=u.read q

theorem Agrees.mono {paths more : Set (List Key)} {o u : Overlay Key Value}
    (h : Agrees paths o u) (hsub : paths⊆more) : Agrees more o u :=
  fun q hq => h q fun p hp => hq p (hsub hp)

theorem Agrees.covers {paths : Set (List Key)} {o u : Overlay Key Value} (h : Agrees paths o u)
    (r : List Key) (hr : ∀p∈paths,¬p<+:r) : o.Covers r ↔ u.Covers r := by
  apply covers_congr
  intro s hs
  exact h s fun p hp hps => hr p hp (hps.trans hs)

/-- A value makes them the same below it too, unless it goes into one that they do not share. -/
theorem Agrees.put {paths : Set (List Key)} {o u : Overlay Key Value} (h : Agrees paths o u)
    (r : List Key) (x : Value) :
    Agrees {p∈paths | ¬(r<+:p ∧ r≠p)} (o.put graft r x) (u.put graft r x) := by
  intro q hq
  by_cases hr : ∃p∈paths,p<+:r
  · obtain ⟨p,hp,hpr⟩ := hr
    have hkept : ¬p<+:q := hq p ⟨hp,fun hrp =>
      hrp.2 (hrp.1.eq_of_length (le_antisymm hrp.1.length_le hpr.length_le))⟩
    have hall (s : List Key) (hs : s∈paths) : ¬s<+:q := by
      intro hsq
      by_cases hrs : r<+:s ∧ r≠s
      · exact hkept (hpr.trans (hrs.1.trans hsq))
      · exact hq s ⟨hs,hrs⟩ hsq
    rw [o.put_outside p r q x hpr hkept,u.put_outside p r q x hpr hkept,h q hall]
  · have hfree (p : List Key) (hp : p∈paths) : ¬p<+:r := fun hpr => hr ⟨p,hp,hpr⟩
    by_cases hall : ∀p∈paths,¬p<+:q
    · by_cases hc : o.Covers r
      · rw [o.put_covered r q x hc,u.put_covered r q x ((h.covers r hfree).mp hc),h q hall]
      · have hcu : ¬u.Covers r := fun hcu => hc ((h.covers r hfree).mpr hcu)
        rw [o.put_free r q x hc,u.put_free r q x hcu,h q hall]
    · have hbelow : ∃p∈paths,p<+:q := by simpa using hall
      obtain ⟨p,hp,hpq⟩ := hbelow
      have hrp : r<+:p ∧ r≠p := by
        by_contra hno
        exact hq p ⟨hp,hno⟩ hpq
      have hne : q≠r := fun hqr => hfree p hp (hqr ▸ hpq)
      rw [o.put_below r q x (hrp.1.trans hpq) hne,u.put_below r q x (hrp.1.trans hpq) hne]

/-- Where no value lies strictly above `p`, a value laid above `p` or at it replaces all below. -/
theorem put_replaces (hgraft : ∀value x,graft value [] x=x) (o : Overlay Key Value)
    (p r q : List Key) (x : Value) (hr : r<+:p) (h : ∀s,s<+:r → s≠p → o.read s=none) :
    (o.put graft r x).read q=if q=r then some x else if r<+:q then none else o.read q := by
  by_cases hc : o.Covers r
  · obtain ⟨s,value,hs,hread⟩ := hc
    have hsp : s=p := by
      by_contra hne
      rw [h s hs hne] at hread
      contradiction
    subst hsp
    have hrs : r=s := List.IsPrefix.eq_of_length hr (le_antisymm hr.length_le hs.length_le)
    subst hrs
    rw [o.put_covered r q x ⟨r,value,hs,hread⟩]
    by_cases hq : q=r
    · subst hq
      simp [hread,hgraft]
    · rw [if_neg hq]
      split
      · rename_i hqr
        have hrq : ¬r<+:q := fun hrq =>
          hq (hqr.eq_of_length (le_antisymm hqr.length_le hrq.length_le))
        rw [if_neg hrq,h q hqr hq]
        rfl
      · split
        · rename_i hrq
          exact o.apart r q value hread hrq hq
        · rfl
  · exact o.put_free r q x hc

/-- A value that is laid above `p` or at it makes overlays that are the same outside `p` equal. -/
theorem Agrees.put_eq (hgraft : ∀value x,graft value [] x=x) {p : List Key}
    {o u : Overlay Key Value} (h : Agrees {p} o u) (r : List Key) (x : Value) (hr : r<+:p) :
    o.put graft r x=u.put graft r x := by
  have hsame (q : List Key) (hq : ¬p<+:q) : o.read q=u.read q := h q fun _ hp => hp ▸ hq
  have hoff (s : List Key) (hs : s<+:p) (hne : s≠p) : ¬p<+:s := fun hps =>
    hne (hs.eq_of_length (le_antisymm hs.length_le hps.length_le))
  by_cases habove : ∃s value,s<+:r ∧ s≠p ∧ o.read s=some value
  · -- a value above `p` leaves nothing below `p` in either
    obtain ⟨s,value,hs,hne,hread⟩ := habove
    have hsp : s<+:p := hs.trans hr
    have hreadu : u.read s=some value := (hsame s (hoff s hsp hne)).symm.trans hread
    have hou : o=u := by
      ext1
      funext q
      by_cases hq : p<+:q
      · have hsq : s<+:q := hsp.trans hq
        have hqs : q≠s := by
          intro hqs
          exact hoff s hsp hne (hqs ▸ hq)
        rw [o.apart s q value hread hsq hqs,u.apart s q value hreadu hsq hqs]
      · exact hsame q hq
    rw [hou]
  · have hnone (s : List Key) (hs : s<+:r) (hne : s≠p) : o.read s=none := by
      cases hread : o.read s with
      | none => rfl
      | some value => exact absurd ⟨s,value,hs,hne,hread⟩ habove
    have hnoneu (s : List Key) (hs : s<+:r) (hne : s≠p) : u.read s=none :=
      (hsame s (hoff s (hs.trans hr) hne)).symm.trans (hnone s hs hne)
    ext1
    funext q
    rw [put_replaces hgraft o p r q x hr hnone,put_replaces hgraft u p r q x hr hnoneu]
    split
    · rfl
    · split
      · rfl
      · rename_i hrq
        exact hsame q fun hpq => hrq (hr.trans hpq)

/-- The values are laid one after the other. -/
noncomputable def layer (graft : Value → List Key → Value → Value) (o : Overlay Key Value)
    (writes : List (List Key × Value)) : Overlay Key Value :=
  writes.foldl (fun o w => o.put graft w.1 w.2) o

theorem layer_cons (o : Overlay Key Value) (w : List Key × Value)
    (writes : List (List Key × Value)) :
    o.layer graft (w::writes)=(o.put graft w.1 w.2).layer graft writes := rfl

theorem layer_append (o : Overlay Key Value) (xs ys : List (List Key × Value)) :
    o.layer graft (xs++ys)=(o.layer graft xs).layer graft ys := List.foldl_append ..

theorem Covers.layer {o : Overlay Key Value} {p : List Key} (h : o.Covers p)
    (writes : List (List Key × Value)) : (o.layer graft writes).Covers p := by
  induction writes generalizing o with
  | nil => exact h
  | cons w writes ih => exact ih (h.put w.1 w.2)

/-- What is laid stays covered. -/
theorem layer_covers (o : Overlay Key Value) (writes : List (List Key × Value))
    (w : List Key × Value) (hw : w∈writes) : (o.layer graft writes).Covers w.1 := by
  induction writes generalizing o with
  | nil => contradiction
  | cons x writes ih =>
    rcases List.mem_cons.mp hw with rfl | hw
    · exact (o.put_covers w.1 w.2).layer writes
    · exact ih _ hw

theorem Agrees.layer {paths : Set (List Key)} {o u : Overlay Key Value} (h : Agrees paths o u)
    (writes : List (List Key × Value)) :
    Agrees {p∈paths | ∀w∈writes,¬(w.1<+:p ∧ w.1≠p)} (o.layer graft writes)
      (u.layer graft writes) := by
  induction writes generalizing paths o u with
  | nil => exact h.mono fun p hp => ⟨hp,by simp⟩
  | cons w writes ih =>
    apply (ih (h.put w.1 w.2)).mono
    rintro p ⟨⟨hp,hw⟩,hwrites⟩
    refine ⟨hp,?_⟩
    intro x hx
    rcases List.mem_cons.mp hx with rfl | hx
    · exact hw
    · exact hwrites x hx

theorem Agrees.layer_eq (hgraft : ∀value x,graft value [] x=x) {p : List Key}
    {o u : Overlay Key Value} (h : Agrees {p} o u) (writes : List (List Key × Value))
    (hw : ∃w∈writes,w.1<+:p) : o.layer graft writes=u.layer graft writes := by
  induction writes generalizing o u with
  | nil => simp at hw
  | cons w writes ih =>
    rw [layer_cons,layer_cons]
    by_cases hp : w.1<+:p
    · rw [h.put_eq hgraft w.1 w.2 hp]
    · apply ih ((h.put w.1 w.2).mono fun _ hq => hq.1)
      obtain ⟨x,hx,hxp⟩ := hw
      rcases List.mem_cons.mp hx with rfl | hx
      · exact absurd hxp hp
      · exact ⟨x,hx,hxp⟩

/-- Values lie only where some were laid. -/
theorem read_layer (writes : List (List Key × Value)) (q : List Key) (value : Value)
    (h : (empty.layer graft writes).read q=some value) : ∃w∈writes,w.1=q := by
  induction writes using List.reverseRecOn generalizing value with
  | nil => contradiction
  | append_singleton writes w ih =>
    rw [layer_append] at h
    rcases read_put_some _ w.1 q w.2 value h with rfl | ⟨old,hold⟩
    · exact ⟨w,by simp,rfl⟩
    · obtain ⟨x,hx,hxq⟩ := ih old hold
      exact ⟨x,List.mem_append_left _ hx,hxq⟩

theorem read_layer_none (writes : List (List Key × Value)) (p q : List Key) (hpq : p<+:q)
    (h : ∀w∈writes,¬p<+:w.1) : (empty.layer graft writes).read q=none := by
  cases hread : (empty.layer graft writes).read q with
  | none => rfl
  | some value =>
    obtain ⟨w,hw,rfl⟩ := read_layer writes q value hread
    exact absurd hpq (h w hw)

/-- Values at or below the paths alone are not seen elsewhere. -/
theorem agrees_layer (paths : Set (List Key)) (writes : List (List Key × Value))
    (h : ∀w∈writes,∃p∈paths,p<+:w.1) : Agrees paths (empty.layer graft writes) empty := by
  intro q hq
  cases hread : (empty.layer graft writes).read q with
  | none => rfl
  | some value =>
    obtain ⟨w,hw,rfl⟩ := read_layer writes q value hread
    obtain ⟨p,hp,hpw⟩ := h w hw
    exact absurd hpw (hq p hp)

/-- What is laid first does not count where a later value covers it all. -/
theorem layer_shadowed (hgraft : ∀value x,graft value [] x=x) (p : List Key)
    (xs ys : List (List Key × Value)) (hxs : ∀x∈xs,p<+:x.1) (hys : ∃y∈ys,y.1<+:p) :
    empty.layer graft (xs++ys)=empty.layer graft ys := by
  rw [layer_append]
  apply (agrees_layer {p} xs fun x hx => ⟨p,rfl,hxs x hx⟩).layer_eq hgraft ys hys

theorem clear_all_read (o : Overlay Key Value) (paths : List (List Key)) (q : List Key) :
    (paths.foldl clear o).read q=if ∃p∈paths,p<+:q then none else o.read q := by
  induction paths generalizing o with
  | nil => simp
  | cons p paths ih =>
    rw [List.foldl_cons,ih,clear_read]
    by_cases hp : p<+:q
    · simp [hp]
    · simp [hp]

/-- What is laid first can be cleared away exactly where all that was laid on it or below has gone
into a value above. -/
theorem layer_cleared_iff (xs ys : List (List Key × Value)) :
    (xs.map Prod.fst).foldl clear (empty.layer graft (xs++ys))=empty.layer graft ys ↔
      ∀x∈xs,(∃y∈ys,y.1<+:x.1 ∧ y.1≠x.1) ∨ ∀y∈ys,¬x.1<+:y.1 := by
  constructor
  · intro h x hx
    by_contra hno
    obtain ⟨habove,hon⟩ := not_or.mp hno
    have hex : ∃y∈ys,x.1<+:y.1 := by simpa using hon
    obtain ⟨y,hy,hxy⟩ := hex
    have hcovers : (empty.layer graft ys).Covers y.1 := layer_covers empty ys y hy
    obtain ⟨s,value,hs,hread⟩ := hcovers
    obtain ⟨z,hz,rfl⟩ := read_layer ys s value hread
    have hxz : x.1<+:z.1 := by
      rcases List.prefix_or_prefix_of_prefix hs hxy with hzx | hxz
      · by_cases hne : z.1=x.1
        · exact hne ▸ List.prefix_refl z.1
        · exact absurd ⟨z,hz,hzx,hne⟩ habove
      · exact hxz
    have hclear := clear_all_read (empty.layer graft (xs++ys)) (xs.map Prod.fst) z.1
    rw [h,hread,if_pos ⟨x.1,List.mem_map_of_mem hx,hxz⟩] at hclear
    contradiction
  · intro h
    have hagrees : Agrees {p∈{p | ∃x∈xs,x.1=p} | ∀y∈ys,¬(y.1<+:p ∧ y.1≠p)}
        (empty.layer graft (xs++ys)) (empty.layer graft ys) := by
      rw [layer_append]
      exact (agrees_layer {p | ∃x∈xs,x.1=p} xs
        fun x hx => ⟨x.1,⟨x,hx,rfl⟩,List.prefix_refl x.1⟩).layer ys
    ext1
    funext q
    rw [clear_all_read]
    split
    · rename_i hcleared
      obtain ⟨p,hp,hpq⟩ := hcleared
      obtain ⟨x,hx,rfl⟩ := List.mem_map.mp hp
      rcases h x hx with ⟨y,hy,hyx,hne⟩ | hnone
      · -- the value above, or one that came above it, leaves nothing here
        have hcovers : (empty.layer graft ys).Covers y.1 := layer_covers empty ys y hy
        obtain ⟨s,value,hs,hread⟩ := hcovers
        have hqs : q≠s := by
          rintro rfl
          exact hne (hyx.eq_of_length (le_antisymm hyx.length_le (hpq.trans hs).length_le))
        exact ((empty.layer graft ys).apart s q value hread (hs.trans (hyx.trans hpq)) hqs).symm
      · exact (read_layer_none ys x.1 q hpq hnone).symm
    · rename_i hkept
      apply hagrees q
      rintro p ⟨⟨x,hx,rfl⟩,_⟩ hpq
      exact hkept ⟨x.1,List.mem_map_of_mem hx,hpq⟩

end Overlay

end Framework
