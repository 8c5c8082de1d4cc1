import ShareImage.Images.Stale

namespace ShareImage.Images

open Framework

/-- What the call of `loadImage(with: s)` in the state `before` has assigned by the state `w`, once
nothing is in flight for it: the cached image, or what its download brought, which may be nil. -/
def World.resolution (p : Platform) (before w : World) (s : String) : Option (Option UIImage) :=
  match before.cached p s with
  | some image => some (some image)
  | none => (w.responses.find? fun r => r.call==before.calls.length).map fun r => p.image r.data

/-- The block of the call has not run and the image is as it was, or no other has run since. -/
def World.Awaits (p : Platform) (before : World) (view : Nat) (w : World) : Prop :=
  (w.image view=before.image view ∧ ∀r∈w.responses,r.call=before.calls.length →
    ⟨before.calls.length,view,p.image r.data⟩∈w.posted) ∨
  ∃r∈w.responses,r.call=before.calls.length ∧ w.image view=p.image r.data

/-- With nothing in flight for the view, its image stays until the next call on it. -/
theorem step_idle (p : Platform) (w v : World) (e : Event) (view : Nat) (h : w.step p e=some v)
    (he : e.calls view=false) (hidle : w.outstanding view=[]) :
    v.outstanding view=[] ∧ v.image view=w.image view := by
  constructor
  · apply List.eq_nil_iff_forall_not_mem.mpr
    intro c hc
    have hold := step_outstanding p w v e view h he c hc
    rw [hidle] at hold
    contradiction
  · rcases step_cases p w v e h with ⟨u,s,rfl,rfl⟩ | ⟨k,t,data,error,rfl,ht,rfl⟩ | ⟨k,a,rfl,hk,rfl⟩
    · have hne : u≠view := by simpa [Event.calls] using he
      exact loadImage_image_other p w view u s hne
    · rfl
    · have hne : a.view≠view := posted_view_ne w view hidle a (List.mem_of_getElem? hk)
      exact Function.update_of_ne hne.symm ..

theorem run_idle (p : Platform) (w v : World) (es : List Event) (view : Nat)
    (he : ∀e∈es,e.calls view=false) (hidle : w.outstanding view=[])
    (h : (machine p).run w es=some v) : v.image view=w.image view := by
  have hrun := (machine p).run_invariant_of_mem
    (fun u => u.outstanding view=[] ∧ u.image view=w.image view) w v es ?_ ⟨hidle,rfl⟩ h
  · exact hrun.2
  · intro u e t hmem hu hstep
    obtain ⟨hout,himage⟩ := step_idle p u t e view hstep (he e hmem) hu.1
    exact ⟨hout,himage.trans hu.2⟩

section Awaits

variable {p : Platform} {before w : World} {view : Nat} {s : String}

theorem awaits_call (hb : Coherent p before) (hmiss : before.cached p s=none) :
    before.Awaits p view (before.loadImage p view s) := by
  left
  constructor
  · rcases loadImage_cases p before view s with ⟨image,hhit,_⟩ | ⟨_,_,hl⟩ | ⟨url,_,_,hl⟩
    · rw [hmiss] at hhit
      contradiction
    · rw [hl]
    · rw [hl]
  · intro r hr hrc
    rw [(loadImage_rest p before view s).2.1] at hr
    have hlt := hb.call_lt r.call (List.mem_append_right _ (List.mem_map_of_mem hr))
    omega

/-- The download of the call completes, or that of another. -/
theorem World.Awaits.completeTask (hw : After p before view s w) (h : before.Awaits p view w)
    (k : Nat) (t : Task) (ht : w.tasks[k]?=some t) (data : Option Data) (error : Option String) :
    before.Awaits p view (w.completeTask p k t data error) := by
  rcases h with ⟨himage,hposted⟩ | ⟨r,hr,hrc,himage⟩
  · refine .inl ⟨himage,?_⟩
    intro r hr hrc
    rcases mem_responses_completeTask p w k t data error r hr with hr | ⟨d,rfl,rfl⟩
    · exact List.mem_append_left _ (hposted r hr hrc)
    · exact hw.completeTask_posted k t ht d error hrc
  · exact .inr ⟨r,List.mem_append_left _ hr,hrc,himage⟩

theorem World.Awaits.runPosted (hw : After p before view s w) (h : before.Awaits p view w)
    (hidle : before.outstanding view=[]) (k : Nat) (a : Assignment) (hk : w.posted[k]?=some a) :
    before.Awaits p view (w.runPosted k a) := by
  have ha : a∈w.posted := List.mem_of_getElem? hk
  by_cases hv : a.view=view
  · -- nothing else is in flight for the view: the block is that of the call
    have hout : a.call∈w.outstanding view := (mem_outstanding ..).mpr (.inr ⟨a,ha,hv,rfl⟩)
    have hcall : a.call=before.calls.length := by
      rcases hw.outstanding a.call hout with ⟨hc,_⟩ | hc
      · exact hc
      · rw [hidle] at hc
        contradiction
    obtain ⟨_,r,hr,hrc,hdata⟩ := hw.coherent.posted a ha
    refine .inr ⟨r,hr,hrc.trans hcall,?_⟩
    have himage : (w.runPosted k a).image view=a.image := by
      simp [World.runPosted,hv]
    exact himage.trans hdata.symm
  · have himage : (w.runPosted k a).image view=w.image view :=
      Function.update_of_ne (Ne.symm hv) ..
    rcases h with ⟨hsame,hposted⟩ | ⟨r,hr,hrc,hshown⟩
    · refine .inl ⟨himage.trans hsame,?_⟩
      intro r hr hrc
      have hmem := hposted r hr hrc
      apply mem_eraseIdx_of_ne w.posted k a _ hk hmem
      intro heq
      exact hv (congrArg Assignment.view heq).symm
    · exact .inr ⟨r,hr,hrc,himage.trans hshown⟩

theorem World.Awaits.step (hw : After p before view s w) (h : before.Awaits p view w)
    (hidle : before.outstanding view=[]) (v : World) (e : Event) (hstep : w.step p e=some v)
    (he : e.calls view=false) : before.Awaits p view v := by
  rcases step_cases p w v e hstep with ⟨u,t,rfl,rfl⟩ | ⟨k,t,data,error,rfl,ht,rfl⟩ |
    ⟨k,a,rfl,hk,rfl⟩
  · have hne : u≠view := by simpa [Event.calls] using he
    obtain ⟨_,hresponses,hposted⟩ := loadImage_rest p w u t
    unfold World.Awaits at h ⊢
    rw [loadImage_image_other p w view u t hne,hresponses,hposted]
    exact h
  · exact h.completeTask hw k t ht data error
  · exact h.runPosted hw hidle k a hk

theorem run_awaits (hb : Coherent p before) (hmiss : before.cached p s=none)
    (hidle : before.outstanding view=[]) (mid : List Event) (hmid : ∀e∈mid,e.calls view=false)
    (h : (machine p).run before (.loadImage view s::mid)=some w) : before.Awaits p view w := by
  obtain ⟨u,hu,hrun⟩ := (machine p).run_cons_split before w _ mid h
  have hu' : u=before.loadImage p view s := (Option.some.inj hu).symm
  subst hu'
  have hboth := (machine p).run_invariant_of_mem
    (fun v => After p before view s v ∧ before.Awaits p view v) _ w mid ?_
    ⟨after_call p before view s hb,awaits_call hb hmiss⟩ hrun
  · exact hboth.2
  · intro u e v he hu hstep
    exact ⟨hu.1.step hb v e hstep (hmid e he),hu.2.step hu.1 hidle v e hstep (hmid e he)⟩

/-- A call that finds nothing in flight for its view decides what the view shows once its own load
is over: what it has assigned, or the image as it was, if it has assigned nothing. -/
theorem image_of_call (hb : Coherent p before) (mid : List Event)
    (hmid : ∀e∈mid,e.calls view=false) (hidle : before.outstanding view=[])
    (h : (machine p).run before (.loadImage view s::mid)=some w)
    (hdone : w.outstanding view=[]) :
    w.image view=(before.resolution p w s).getD (before.image view) := by
  have hw : After p before view s w := run_after p before view s mid w hb hmid h
  have settled : ∀image,⟨before.calls.length,view,image⟩∉w.posted := by
    intro image hmem
    exact posted_view_ne w view hdone _ hmem rfl
  unfold World.resolution
  cases hcache : before.cached p s with
  | some image =>
    rcases hw.shows image (.inl hcache) with hshown | hlate | hposted
    · exact hshown
    · exact absurd hlate (before.not_late p w view _ hidle)
    · exact absurd hposted (settled _)
  | none =>
    have hawaits : before.Awaits p view w := run_awaits hb hcache hidle mid hmid h
    cases hfind : w.responses.find? fun r => r.call==before.calls.length with
    | none =>
      rcases hawaits with ⟨hsame,_⟩ | ⟨r,hr,hrc,_⟩
      · exact hsame
      · have hno := List.find?_eq_none.mp hfind r hr
        simp [hrc] at hno
    | some r =>
      have hr : r∈w.responses := List.mem_of_find?_eq_some hfind
      have hrc : r.call=before.calls.length := by
        have hfound := List.find?_some hfind
        simpa using hfound
      rcases hawaits with ⟨_,hposted⟩ | ⟨t,ht,htc,hshown⟩
      · exact absurd (hposted r hr hrc) (settled _)
      · have hrt : r=t := hw.coherent.response_unique r t hr ht (hrc.trans htc.symm)
        rw [hrt]
        exact hshown

end Awaits

end ShareImage.Images
