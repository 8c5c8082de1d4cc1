import ShareImage.Images.Invariant
import Mathlib.Data.List.Nodup

namespace ShareImage.Images

open Framework

/-- The event is a call of `loadImage(with:)` on the view. -/
def Event.calls (view : Nat) : Event → Bool
  | .loadImage v _ => v==view
  | _ => false

theorem mem_outstanding (w : World) (view c : Nat) : c∈w.outstanding view ↔
    (∃t∈w.tasks,t.view=view ∧ t.call=c) ∨ ∃a∈w.posted,a.view=view ∧ a.call=c := by
  simp [World.outstanding,and_assoc]

/-- With nothing in flight for the view, no posted assignment is for it. -/
theorem posted_view_ne (w : World) (view : Nat) (h : w.outstanding view=[]) (a : Assignment)
    (ha : a∈w.posted) : a.view≠view := by
  intro hv
  have hout : a.call∈w.outstanding view := (mem_outstanding ..).mpr (.inr ⟨a,ha,hv,rfl⟩)
  rw [h] at hout
  contradiction

/-- The events that leave the view alone put nothing in flight for it. -/
theorem step_outstanding (p : Platform) (w v : World) (e : Event) (view : Nat)
    (h : w.step p e=some v) (he : e.calls view=false) :
    ∀c∈v.outstanding view,c∈w.outstanding view := by
  intro c hc
  rw [mem_outstanding] at hc ⊢
  rcases step_cases p w v e h with ⟨u,s,rfl,rfl⟩ | ⟨k,t,data,error,rfl,ht,rfl⟩ | ⟨k,a,rfl,_,rfl⟩
  · have hne : u≠view := by simpa [Event.calls] using he
    rcases loadImage_cases p w u s with ⟨image,_,hl⟩ | ⟨_,_,hl⟩ | ⟨url,_,_,hl⟩
    · rw [hl] at hc
      exact hc
    · rw [hl] at hc
      exact hc
    · rw [hl] at hc
      simpa [or_and_right,exists_or,hne] using hc
  · have hmem : t∈w.tasks := List.mem_of_getElem? ht
    rcases hc with ⟨x,hx,hxv,hxc⟩ | ⟨a,ha,hav,hac⟩
    · exact .inl ⟨x,List.mem_of_mem_eraseIdx hx,hxv,hxc⟩
    · rcases List.mem_append.mp ha with ha | ha
      · exact .inr ⟨a,ha,hav,hac⟩
      · obtain ⟨image,_,rfl⟩ := List.mem_map.mp ha
        exact .inl ⟨t,hmem,hav,hac⟩
  · rcases hc with hc | ⟨b,hb,hbv,hbc⟩
    · exact .inl hc
    · exact .inr ⟨b,List.mem_of_mem_eraseIdx hb,hbv,hbc⟩

/-- The call itself puts at most its own download in flight, and that only on a cache miss. -/
theorem loadImage_outstanding (p : Platform) (w : World) (view : Nat) (s : String) :
    ∀c∈(w.loadImage p view s).outstanding view,
      c=w.calls.length ∧ w.cached p s=none ∨ c∈w.outstanding view := by
  intro c hc
  rw [mem_outstanding] at hc ⊢
  rcases loadImage_cases p w view s with ⟨image,_,hl⟩ | ⟨_,_,hl⟩ | ⟨url,hmiss,_,hl⟩
  · rw [hl] at hc
    exact .inr hc
  · rw [hl] at hc
    exact .inr hc
  · rw [hl] at hc
    simp only [List.mem_append,List.mem_singleton] at hc
    rcases hc with ⟨t,ht | rfl,htv,htc⟩ | ha
    · exact .inr (.inl ⟨t,ht,htv,htc⟩)
    · exact .inl ⟨htc.symm,hmiss⟩
    · exact .inr (.inr ha)

/-- What a call leaves alone, and its entry in `calls`. -/
theorem loadImage_rest (p : Platform) (w : World) (view : Nat) (s : String) :
    (w.loadImage p view s).calls=w.calls++[(view,s)] ∧
    (w.loadImage p view s).responses=w.responses ∧
    (w.loadImage p view s).posted=w.posted := by
  rcases loadImage_cases p w view s with ⟨image,_,hl⟩ | ⟨_,_,hl⟩ | ⟨url,_,_,hl⟩
  all_goals
    rw [hl]
    exact ⟨rfl,rfl,rfl⟩

theorem step_calls (p : Platform) (w v : World) (e : Event) (h : w.step p e=some v) (c : Nat)
    (x : Nat × String) (hx : w.calls[c]?=some x) : v.calls[c]?=some x := by
  rcases step_cases p w v e h with ⟨u,s,rfl,rfl⟩ | ⟨k,t,data,error,rfl,_,rfl⟩ | ⟨k,a,rfl,_,rfl⟩
  · rw [(loadImage_rest p w u s).1]
    exact calls_concat w c x (u,s) hx
  · exact hx
  · exact hx

theorem step_responses (p : Platform) (w v : World) (e : Event) (h : w.step p e=some v) :
    w.responses⊆v.responses := by
  rcases step_cases p w v e h with ⟨u,s,rfl,rfl⟩ | ⟨k,t,data,error,rfl,_,rfl⟩ | ⟨k,a,rfl,_,rfl⟩
  · rw [(loadImage_rest p w u s).2.1]
    exact List.Subset.refl _
  · exact List.subset_append_left ..
  · exact List.Subset.refl _

/-- An assignment in flight is the own image of the string of its call. -/
theorem Coherent.posted_own {p : Platform} {w : World} (hw : Coherent p w) (a : Assignment)
    (ha : a∈w.posted) : ∃s,w.calls[a.call]?=some (a.view,s) ∧ w.Own p s a.image := by
  obtain ⟨⟨s,hs⟩,r,hr,hrc,himage⟩ := hw.posted a ha
  obtain ⟨u,t,ht,hparse⟩ := hw.response r hr
  rw [hrc,hs] at ht
  cases ht
  exact ⟨s,hs,r,hr,hparse,himage⟩

/-- The image is that of a call on the view that was in flight in the state `before`. -/
def World.Late (p : Platform) (before w : World) (view : Nat) (image : Option UIImage) : Prop :=
  ∃c∈before.outstanding view,∃s,before.calls[c]?=some (view,s) ∧ w.Own p s image

/-- The call of `loadImage(with: s)` in the state `before` has loaded the image, from the cache or
by its download. -/
def World.Loaded (p : Platform) (before w : World) (s : String) (image : UIImage) : Prop :=
  before.cached p s=some image ∨
  before.cached p s=none ∧ ∃r∈w.responses,r.call=before.calls.length ∧ p.image r.data=some image

theorem World.Late.mono {p : Platform} {before w v : World} {view : Nat}
    {image : Option UIImage} (h : before.Late p w view image)
    (hsub : w.responses⊆v.responses) : before.Late p v view image := by
  obtain ⟨c,hc,s,hs,hown⟩ := h
  exact ⟨c,hc,s,hs,hown.mono hsub⟩

theorem World.not_late (before : World) (p : Platform) (w : World) (view : Nat)
    (image : Option UIImage) (h : before.outstanding view=[]) : ¬before.Late p w view image := by
  rintro ⟨c,hc,_⟩
  rw [h] at hc
  contradiction

/-- The state `w` after the call of `loadImage(with: s)` on the view in the state `before`, and
further events that leave the view alone. -/
structure After (p : Platform) (before : World) (view : Nat) (s : String) (w : World) : Prop where
  coherent : Coherent p w
  call : w.calls[before.calls.length]?=some (view,s)
  earlier : ∀(c : Nat) (x : Nat × String),before.calls[c]?=some x → w.calls[c]?=some x
  outstanding : ∀c∈w.outstanding view,
    c=before.calls.length ∧ before.cached p s=none ∨ c∈before.outstanding view
  shows : ∀image,before.Loaded p w s image →
    w.image view=some image ∨ before.Late p w view (w.image view) ∨
      ⟨before.calls.length,view,some image⟩∈w.posted

theorem Coherent.outstanding_lt {p : Platform} {w : World} (hw : Coherent p w) (view c : Nat)
    (hc : c∈w.outstanding view) : c<w.calls.length := by
  rcases (mem_outstanding ..).mp hc with ⟨t,ht,_,htc⟩ | ⟨a,ha,_,hac⟩
  · obtain ⟨s,hs,_⟩ := hw.task t ht
    rw [←htc]
    exact (List.getElem?_eq_some_iff.mp hs).1
  · obtain ⟨⟨s,hs⟩,_⟩ := hw.posted a ha
    rw [←hac]
    exact (List.getElem?_eq_some_iff.mp hs).1

theorem Coherent.response_unique {p : Platform} {w : World} (hw : Coherent p w) (r t : Response)
    (hr : r∈w.responses) (ht : t∈w.responses) (h : r.call=t.call) : r=t :=
  List.inj_on_of_nodup_map (List.nodup_append.mp hw.once).2.1 hr ht h

/-- The call assigns what the cache has for its string, if anything. -/
theorem loadImage_image (p : Platform) (w : World) (view : Nat) (s : String) (image : UIImage)
    (h : w.cached p s=some image) : (w.loadImage p view s).image view=some image := by
  rcases loadImage_cases p w view s with ⟨cached,hhit,hl⟩ | ⟨hmiss,_⟩ | ⟨_,hmiss,_⟩
  · rw [h] at hhit
    cases hhit
    rw [hl]
    exact Function.update_self ..
  · rw [h] at hmiss
    contradiction
  · rw [h] at hmiss
    contradiction

theorem loadImage_image_other (p : Platform) (w : World) (view u : Nat) (s : String)
    (h : u≠view) : (w.loadImage p u s).image view=w.image view := by
  rcases loadImage_cases p w u s with ⟨image,_,hl⟩ | ⟨_,_,hl⟩ | ⟨url,_,_,hl⟩
  · rw [hl]
    exact Function.update_of_ne h.symm ..
  · rw [hl]
  · rw [hl]

theorem after_call (p : Platform) (w : World) (view : Nat) (s : String) (hw : Coherent p w) :
    After p w view s (w.loadImage p view s) where
  coherent := hw.loadImage view s
  call := by
    rw [(loadImage_rest p w view s).1]
    simp
  earlier := by
    intro c x hx
    rw [(loadImage_rest p w view s).1]
    exact calls_concat w c x _ hx
  outstanding := loadImage_outstanding p w view s
  shows := by
    rintro image (hcache | ⟨_,r,hr,hrc,_⟩)
    · exact .inl (loadImage_image p w view s image hcache)
    · -- the call is new, so that it has no response yet
      rw [(loadImage_rest p w view s).2.1] at hr
      have hlt := hw.call_lt r.call (List.mem_append_right _ (List.mem_map_of_mem hr))
      omega

/-- The download of the call posts what its data decodes to. -/
theorem After.completeTask_posted {p : Platform} {before w : World} {view : Nat} {s : String}
    (hw : After p before view s w) (k : Nat) (t : Task) (ht : w.tasks[k]?=some t) (d : Data)
    (error : Option String) (hcall : t.call=before.calls.length) :
    ⟨before.calls.length,view,p.image d⟩∈(w.completeTask p k t (some d) error).posted := by
  obtain ⟨x,hx,_⟩ := hw.coherent.task t (List.mem_of_getElem? ht)
  rw [hcall,hw.call] at hx
  have hview : view=t.view := congrArg Prod.fst (Option.some.inj hx)
  apply List.mem_append_right
  simp [hcall,hview]

section After

variable {p : Platform} {before w : World} {view : Nat} {s : String}
variable (hb : Coherent p before) (hw : After p before view s w)
include hb hw

/-- An assignment in flight for the view is that of the call, or that of an earlier call which was
in flight at the call. -/
theorem After.posted (a : Assignment) (ha : a∈w.posted) (hv : a.view=view) :
    (a.call=before.calls.length ∧ before.cached p s=none ∧ w.Own p s a.image) ∨
    before.Late p w view a.image := by
  obtain ⟨t,hcall,hown⟩ := hw.coherent.posted_own a ha
  have hout : a.call∈w.outstanding view := (mem_outstanding ..).mpr (.inr ⟨a,ha,hv,rfl⟩)
  rcases hw.outstanding a.call hout with ⟨hc,hmiss⟩ | hc
  · rw [hc,hw.call] at hcall
    cases hcall
    exact .inl ⟨hc,hmiss,hown⟩
  · have hbefore := List.getElem?_eq_getElem (hb.outstanding_lt view a.call hc)
    have hsame := hw.earlier _ _ hbefore
    rw [hcall] at hsame
    refine .inr ⟨a.call,hc,t,?_,hown⟩
    rw [hbefore,←Option.some.inj hsame,hv]

theorem After.runPosted_shows (k : Nat) (a : Assignment) (hk : w.posted[k]?=some a)
    (image : UIImage) (h : before.Loaded p w s image) :
    (w.runPosted k a).image view=some image ∨
    before.Late p w view ((w.runPosted k a).image view) ∨
      ⟨before.calls.length,view,some image⟩∈(w.runPosted k a).posted := by
  have ha : a∈w.posted := List.mem_of_getElem? hk
  by_cases hv : a.view=view
  · have himage : (w.runPosted k a).image view=a.image := by
      simp [World.runPosted,hv]
    rw [himage]
    rcases hw.posted hb a ha hv with ⟨hc,hmiss,_⟩ | hlate
    · rcases h with hcache | ⟨_,r,hr,hrc,hdata⟩
      · rw [hmiss] at hcache
        contradiction
      · obtain ⟨_,t,ht,htc,htdata⟩ := hw.coherent.posted a ha
        have hrt : r=t := hw.coherent.response_unique r t hr ht (hrc.trans (htc.trans hc).symm)
        left
        rw [←htdata,←hrt,hdata]
    · exact .inr (.inl hlate)
  · have himage : (w.runPosted k a).image view=w.image view :=
      Function.update_of_ne (Ne.symm hv) ..
    rw [himage]
    rcases hw.shows image h with hs | hlate | hposted
    · exact .inl hs
    · exact .inr (.inl hlate)
    · have hne : (⟨before.calls.length,view,some image⟩ : Assignment)≠a := by
        intro heq
        exact hv (congrArg Assignment.view heq).symm
      exact .inr (.inr (mem_eraseIdx_of_ne w.posted k a _ hk hposted hne))

theorem After.step_shows (v : World) (e : Event) (h : w.step p e=some v)
    (he : e.calls view=false) (image : UIImage) (himage : before.Loaded p v s image) :
    v.image view=some image ∨ before.Late p v view (v.image view) ∨
      ⟨before.calls.length,view,some image⟩∈v.posted := by
  have hsub := step_responses p w v e h
  have keep : ∀{x},before.Late p w view x → before.Late p v view x := fun hl => hl.mono hsub
  rcases step_cases p w v e h with ⟨u,t,rfl,rfl⟩ | ⟨k,t,data,error,rfl,ht,rfl⟩ | ⟨k,a,rfl,hk,rfl⟩
  · have hne : u≠view := by simpa [Event.calls] using he
    obtain ⟨_,hresponses,hposted⟩ := loadImage_rest p w u t
    have hloaded : before.Loaded p w s image := by
      simpa only [World.Loaded,hresponses] using himage
    rw [loadImage_image_other p w view u t hne,hposted]
    exact (hw.shows image hloaded).imp_right fun hl => hl.imp_left keep
  · have hposted : w.posted⊆(w.completeTask p k t data error).posted :=
      List.subset_append_left ..
    have old : before.Loaded p w s image → _ := fun hl =>
      (hw.shows image hl).imp_right fun hl => hl.imp keep (@hposted _)
    rcases himage with hcache | ⟨hmiss,r,hr,hrc,hdata⟩
    · exact old (.inl hcache)
    · rcases mem_responses_completeTask p w k t data error r hr with hr | ⟨d,rfl,rfl⟩
      · exact old (.inr ⟨hmiss,r,hr,hrc,hdata⟩)
      · -- the download of the call itself
        rw [←hdata]
        exact .inr (.inr (hw.completeTask_posted k t ht d error hrc))
  · exact hw.runPosted_shows hb k a hk image himage

theorem After.step (v : World) (e : Event) (h : w.step p e=some v) (he : e.calls view=false) :
    After p before view s v where
  coherent := step_coherent p w e v hw.coherent h
  call := step_calls p w v e h _ _ hw.call
  earlier := fun c x hx => step_calls p w v e h c x (hw.earlier c x hx)
  outstanding := fun c hc => hw.outstanding c (step_outstanding p w v e view h he c hc)
  shows := hw.step_shows hb v e h he

theorem After.assigned (e : Event) (he : e.calls view=false) (image : Option UIImage)
    (h : w.assigned p e=some (view,image)) : w.Own p s image ∨ before.Late p w view image := by
  cases e with
  | loadImage u t =>
    obtain ⟨x,_,hx⟩ := Option.map_eq_some_iff.mp h
    cases hx
    simp [Event.calls] at he
  | completeTask k data error => contradiction
  | runPosted k =>
    obtain ⟨a,hk,hx⟩ := Option.map_eq_some_iff.mp h
    cases hx
    exact (hw.posted hb a (List.mem_of_getElem? hk) rfl).imp_left fun hown => hown.2.2

end After

theorem run_after (p : Platform) (before : World) (view : Nat) (s : String) (mid : List Event)
    (w : World) (hb : Coherent p before) (hmid : ∀e∈mid,e.calls view=false)
    (h : (machine p).run before (.loadImage view s::mid)=some w) : After p before view s w := by
  obtain ⟨u,hu,hrun⟩ := (machine p).run_cons_split before w _ mid h
  have hu' : u=before.loadImage p view s := (Option.some.inj hu).symm
  subst hu'
  exact (machine p).run_invariant_of_mem (After p before view s) _ w mid
    (fun u e v he hafter hstep => hafter.step hb v e hstep (hmid e he))
    (after_call p before view s hb) hrun

/-- The call assigns what is filed under its string, which is the own image of the string where that
is normal. Until the next call on the view, an image assigned to it is the own image of the string,
or that of an earlier call on the view that was still in flight at the call. Once nothing is in
flight for the view and the call has loaded, the view shows the one or the other; with nothing in
flight at the call, the former. -/
theorem assigned_until_next_call (p : Platform) (pre mid : List Event) (view : Nat) (s : String)
    (before w : World) (hpre : (machine p).run {} pre=some before)
    (hmid : ∀e∈mid,e.calls view=false)
    (h : (machine p).run before (.loadImage view s::mid)=some w) :
    (∀v image,before.assigned p (.loadImage view s)=some (v,image) →
      v=view ∧ before.Filed p s image ∧ (p.normal s=s → before.Own p s image)) ∧
    (∀e image,e.calls view=false → w.assigned p e=some (view,image) →
      w.Own p s image ∨ before.Late p w view image) ∧
    (∀image,before.Loaded p w s image → w.outstanding view=[] →
      w.image view=some image ∨ before.Late p w view (w.image view)) ∧
    (before.outstanding view=[] →
      (∀e image,e.calls view=false → w.assigned p e=some (view,image) → w.Own p s image) ∧
      ∀image,before.Loaded p w s image → w.outstanding view=[] → w.image view=some image) := by
  have hb : Coherent p before := run_coherent p pre before hpre
  have hw : After p before view s w := run_after p before view s mid w hb hmid h
  have hassign : ∀e image,e.calls view=false → w.assigned p e=some (view,image) →
      w.Own p s image ∨ before.Late p w view image := fun e image he => hw.assigned hb e he image
  have hshow : ∀image,before.Loaded p w s image → w.outstanding view=[] →
      w.image view=some image ∨ before.Late p w view (w.image view) := by
    intro image hloaded hnone
    rcases hw.shows image hloaded with hs | hlate | hposted
    · exact .inl hs
    · exact .inr hlate
    · exact absurd rfl (posted_view_ne w view hnone _ hposted)
  refine ⟨?_,hassign,hshow,?_⟩
  · intro v image hassigned
    obtain ⟨x,hx,heq⟩ := Option.map_eq_some_iff.mp hassigned
    cases heq
    have hfiled : before.Filed p s (some x) := hb.filed s x hx
    refine ⟨rfl,hfiled,?_⟩
    intro hnormal
    have hown := hb.own_normal s (some x) hfiled
    rwa [hnormal] at hown
  · intro hnone
    have hnever := fun image => before.not_late p w view image hnone
    constructor
    · intro e image he hassigned
      exact (hassign e image he hassigned).resolve_right (hnever image)
    · intro image hloaded hrest
      exact (hshow image hloaded hrest).resolve_right (hnever (w.image view))

/-- Two calls on one view; the download of the second comes first. -/
def overtaken : List Event :=
  [.loadImage 0 "https://i/a",.loadImage 0 "https://i/b",.completeTask 1 (some ⟨[2]⟩) none,
    .runPosted 0,.completeTask 0 (some ⟨[1]⟩) none,.runPosted 0]

theorem assigned_until_next_call_overtaken :
    ∃before w,(machine .plain).run {} (overtaken.take 1)=some before ∧
      (machine .plain).run before (overtaken.drop 1)=some w ∧ w.outstanding 0=[] ∧
      (w.image 0=some {pixels := [2]} ∨ before.Late .plain w 0 (w.image 0)) := by
  refine ⟨_,_,rfl,rfl,by decide,?_⟩
  exact (assigned_until_next_call .plain (overtaken.take 1) (overtaken.drop 2) 0 "https://i/b" _ _
    rfl (by decide) rfl).2.2.1 {pixels := [2]} (.inr (by decide)) (by decide)

/-- The view ends with the image of the first string, though the last has loaded. -/
theorem not_own_image : ¬∀(p : Platform) (pre mid : List Event) (view : Nat) (s : String)
    (before w : World) (image : UIImage),(machine p).run {} pre=some before →
    (∀e∈mid,e.calls view=false) →
    (machine p).run before (.loadImage view s::mid)=some w → before.Loaded p w s image →
    w.outstanding view=[] → w.image view=some image := by
  intro h
  have himage := h .plain (overtaken.take 1) (overtaken.drop 2) 0 "https://i/b" _ _
    {pixels := [2]} rfl (by decide) rfl (.inr (by decide)) (by decide)
  exact absurd himage (by decide)

end ShareImage.Images
