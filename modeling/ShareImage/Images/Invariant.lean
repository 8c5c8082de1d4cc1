import ShareImage.Framework.Log
import ShareImage.Framework.Table
import ShareImage.Images.World

namespace ShareImage.Images

open Framework

/-- What holds of the cache and of everything in flight in every reachable state. A call has
either its download in flight or one response. -/
structure Coherent (p : Platform) (w : World) : Prop where
  task : ∀t∈w.tasks,∃s,w.calls[t.call]?=some (t.view,s) ∧ p.parse s=some t.url
  response : ∀r∈w.responses,∃v s,w.calls[r.call]?=some (v,s) ∧ p.parse s=some r.url
  posted : ∀a∈w.posted,(∃s,w.calls[a.call]?=some (a.view,s)) ∧
    ∃r∈w.responses,r.call=a.call ∧ p.image r.data=a.image
  cache : Supported (fun key image => ∃r∈w.responses,
    key=p.normal r.url.absoluteString ∧ p.image r.data=some image) w.cache.entry
  once : (w.tasks.map Task.call++w.responses.map Response.call).Nodup

theorem World.Own.mono {p : Platform} {w v : World} {s : String} {image : Option UIImage}
    (h : w.Own p s image) (hsub : w.responses⊆v.responses) : v.Own p s image := by
  obtain ⟨r,hr,hparse,himage⟩ := h
  exact ⟨r,hsub hr,hparse,himage⟩

theorem calls_concat (w : World) (c : Nat) (x y : Nat × String) (h : w.calls[c]?=some x) :
    (w.calls++[y])[c]?=some x := by
  rw [List.getElem?_append_left (List.getElem?_eq_some_iff.mp h).1]
  exact h

/-- What a call does: a cache hit is assigned, a string that is no URL is ignored, and for any
other a download starts. -/
theorem loadImage_cases (p : Platform) (w : World) (view : Nat) (s : String) :
    (∃image,w.cached p s=some image ∧ w.loadImage p view s={w with
      calls := w.calls++[(view,s)],image := Function.update w.image view (some image)}) ∨
    (w.cached p s=none ∧ p.parse s=none ∧ w.loadImage p view s={w with
      calls := w.calls++[(view,s)]}) ∨
    (∃url,w.cached p s=none ∧ p.parse s=some url ∧ w.loadImage p view s={w with
      calls := w.calls++[(view,s)],tasks := w.tasks++[⟨w.calls.length,view,url⟩]}) := by
  unfold World.cached
  cases hcache : w.cache.get p s with
  | some image =>
    refine .inl ⟨image,rfl,?_⟩
    simp only [World.loadImage,UIImageView.loadImage,hcache]
  | none =>
    cases hparse : p.parse s with
    | none =>
      refine .inr (.inl ⟨rfl,rfl,?_⟩)
      simp only [World.loadImage,UIImageView.loadImage,hcache,hparse]
    | some url =>
      refine .inr (.inr ⟨url,rfl,rfl,?_⟩)
      simp only [World.loadImage,UIImageView.loadImage,hcache,hparse]

/-- The completion of a download adds its own response at most. -/
theorem mem_responses_completeTask (p : Platform) (w : World) (k : Nat) (t : Task)
    (data : Option Data) (error : Option String) (r : Response)
    (hr : r∈(w.completeTask p k t data error).responses) :
    r∈w.responses ∨ ∃d,data=some d ∧ r=⟨t.call,t.url,d⟩ := by
  rcases List.mem_append.mp hr with hr | hr
  · exact .inl hr
  · obtain ⟨d,hd,heq⟩ := List.mem_map.mp hr
    have hdata : data=some d := Option.mem_toList.mp hd
    exact .inr ⟨d,hdata,heq.symm⟩

theorem start_coherent (p : Platform) : Coherent p {} where
  task := by simp
  response := by simp
  posted := by simp
  cache := supported_empty
  once := by simp

section Coherent

variable {p : Platform} {w : World} (hw : Coherent p w)
include hw

/-- What the cache has under a string is filed there. -/
theorem Coherent.filed (s : String) (image : UIImage) (h : w.cached p s=some image) :
    w.Filed p s (some image) := hw.cache _ image h

/-- A response is to the URL of a call. -/
theorem Coherent.asked (r : Response) (hr : r∈w.responses) :
    ∃v s,(v,s)∈w.calls ∧ w.Own p s (p.image r.data) := by
  obtain ⟨v,s,hs,hparse⟩ := hw.response r hr
  exact ⟨v,s,List.mem_of_getElem? hs,r,hr,hparse,rfl⟩

/-- What is filed under a string is the own image of its normal form. -/
theorem Coherent.own_normal (s : String) (image : Option UIImage) (h : w.Filed p s image) :
    w.Own p (p.normal s) image := by
  obtain ⟨r,hr,hs,himage⟩ := h
  obtain ⟨_,t,_,hparse⟩ := hw.response r hr
  rw [p.normal_absoluteString t r.url hparse] at hs
  rw [hs]
  exact ⟨r,hr,p.parse_absoluteString t r.url hparse,himage⟩

theorem Coherent.call_lt (c : Nat)
    (hc : c∈w.tasks.map Task.call++w.responses.map Response.call) : c<w.calls.length := by
  rcases List.mem_append.mp hc with hc | hc
  · obtain ⟨t,ht,rfl⟩ := List.mem_map.mp hc
    obtain ⟨s,hs,_⟩ := hw.task t ht
    exact (List.getElem?_eq_some_iff.mp hs).1
  · obtain ⟨r,hr,rfl⟩ := List.mem_map.mp hc
    obtain ⟨v,s,hs,_⟩ := hw.response r hr
    exact (List.getElem?_eq_some_iff.mp hs).1

/-- A call keeps all that was known when it only adds its number and, perhaps, an image. -/
theorem Coherent.called (view : Nat) (s : String) (image : Nat → Option UIImage) :
    Coherent p {w with calls := w.calls++[(view,s)],image := image} where
  task := fun t ht =>
    let ⟨u,hu,hp⟩ := hw.task t ht
    ⟨u,calls_concat w _ _ _ hu,hp⟩
  response := fun r hr =>
    let ⟨v,u,hu,hp⟩ := hw.response r hr
    ⟨v,u,calls_concat w _ _ _ hu,hp⟩
  posted := fun a ha =>
    let ⟨⟨u,hu⟩,hr⟩ := hw.posted a ha
    ⟨⟨u,calls_concat w _ _ _ hu⟩,hr⟩
  cache := hw.cache
  once := hw.once

theorem Coherent.loadImage (view : Nat) (s : String) : Coherent p (w.loadImage p view s) := by
  have hc := hw.called view s w.image
  rcases loadImage_cases p w view s with ⟨image,_,hl⟩ | ⟨_,_,hl⟩ | ⟨url,_,hparse,hl⟩
  · rw [hl]
    exact hw.called view s _
  · rw [hl]
    exact hc
  · rw [hl]
    refine ⟨?_,hc.response,hc.posted,hc.cache,?_⟩
    · intro t ht
      rcases List.mem_append.mp ht with ht | ht
      · exact hc.task t ht
      · have hnew : t=⟨w.calls.length,view,url⟩ := List.mem_singleton.mp ht
        subst hnew
        exact ⟨s,by simp,hparse⟩
    · have hnew : w.calls.length∉w.tasks.map Task.call++w.responses.map Response.call := by
        intro hm
        have hlt := hw.call_lt _ hm
        omega
      have hperm : ((w.tasks++[(⟨w.calls.length,view,url⟩ : Task)]).map Task.call++
          w.responses.map Response.call).Perm
          (w.calls.length::(w.tasks.map Task.call++w.responses.map Response.call)) := by
        rw [List.map_append,List.append_assoc]
        exact List.perm_middle
      exact hperm.nodup_iff.mpr (List.nodup_cons.mpr ⟨hnew,hw.once⟩)

theorem Coherent.completeTask (k : Nat) (t : Task) (ht : w.tasks[k]?=some t)
    (data : Option Data) (error : Option String) :
    Coherent p (w.completeTask p k t data error) := by
  have hmem : t∈w.tasks := List.mem_of_getElem? ht
  have erased : ∀u∈w.tasks.eraseIdx k,u∈w.tasks := fun u hu => List.mem_of_mem_eraseIdx hu
  obtain ⟨s,hs,hparse⟩ := hw.task t hmem
  cases data with
  | none =>
    refine ⟨fun u hu => hw.task u (erased u hu),?_,?_,?_,?_⟩
    · simpa [World.completeTask,UIImageView.taskCompletion] using hw.response
    · simpa [World.completeTask,UIImageView.taskCompletion] using hw.posted
    · simpa [World.completeTask,UIImageView.taskCompletion] using hw.cache
    · have hsub : ((w.tasks.eraseIdx k).map Task.call++w.responses.map Response.call).Sublist
          (w.tasks.map Task.call++w.responses.map Response.call) :=
        ((List.eraseIdx_sublist w.tasks k).map _).append_right _
      simpa [World.completeTask,UIImageView.taskCompletion] using hw.once.sublist hsub
  | some d =>
    have hsub : w.responses⊆w.responses++[⟨t.call,t.url,d⟩] := List.subset_append_left ..
    refine ⟨fun u hu => hw.task u (erased u hu),?_,?_,?_,?_⟩
    · intro r hr
      rcases List.mem_append.mp hr with hr | hr
      · exact hw.response r hr
      · have hnew : r=⟨t.call,t.url,d⟩ := by simpa using hr
        subst hnew
        exact ⟨t.view,s,hs,hparse⟩
    · intro a ha
      rcases List.mem_append.mp ha with ha | ha
      · obtain ⟨hc,r,hr,heq⟩ := hw.posted a ha
        exact ⟨hc,r,hsub hr,heq⟩
      · have hnew : a=⟨t.call,t.view,p.image d⟩ := by simpa using ha
        subst hnew
        exact ⟨⟨s,hs⟩,⟨t.call,t.url,d⟩,List.mem_append_right _ (by simp),rfl,rfl⟩
    · refine Supported.update (hw.cache.mono ?_) (p.normal t.url.absoluteString) (p.image d) ?_
      · rintro key image ⟨r,hr,hkey⟩
        exact ⟨r,hsub hr,hkey⟩
      · intro image himage
        exact ⟨⟨t.call,t.url,d⟩,List.mem_append_right _ (by simp),rfl,himage⟩
    · have hperm : ((w.tasks.eraseIdx k).map Task.call++
          (w.responses++[(⟨t.call,t.url,d⟩ : Response)]).map Response.call).Perm
          (w.tasks.map Task.call++w.responses.map Response.call) := by
        have htasks : (t::w.tasks.eraseIdx k).Perm w.tasks := cons_eraseIdx_perm _ k t ht
        rw [List.map_append,←List.append_assoc]
        exact (List.perm_append_singleton ..).trans ((htasks.map Task.call).append_right _)
      exact hperm.nodup_iff.mpr hw.once

theorem Coherent.runPosted (k : Nat) (a : Assignment) : Coherent p (w.runPosted k a) where
  task := hw.task
  response := hw.response
  posted := fun b hb => hw.posted b (List.mem_of_mem_eraseIdx hb)
  cache := hw.cache
  once := hw.once

end Coherent

/-- What one event does. -/
theorem step_cases (p : Platform) (w v : World) (e : Event) (h : w.step p e=some v) :
    (∃view s,e=.loadImage view s ∧ v=w.loadImage p view s) ∨
    (∃k t data error,e=.completeTask k data error ∧ w.tasks[k]?=some t ∧
      v=w.completeTask p k t data error) ∨
    (∃k a,e=.runPosted k ∧ w.posted[k]?=some a ∧ v=w.runPosted k a) := by
  cases e with
  | loadImage view s => exact .inl ⟨view,s,rfl,(Option.some.inj h).symm⟩
  | completeTask k data error =>
    obtain ⟨t,ht,hv⟩ := Option.map_eq_some_iff.mp h
    exact .inr (.inl ⟨k,t,data,error,rfl,ht,hv.symm⟩)
  | runPosted k =>
    obtain ⟨a,ha,hv⟩ := Option.map_eq_some_iff.mp h
    exact .inr (.inr ⟨k,a,rfl,ha,hv.symm⟩)

theorem step_coherent (p : Platform) (w : World) (e : Event) (v : World) (hw : Coherent p w)
    (h : w.step p e=some v) : Coherent p v := by
  rcases step_cases p w v e h with ⟨view,s,_,rfl⟩ | ⟨k,t,data,error,_,ht,rfl⟩ | ⟨k,a,_,_,rfl⟩
  · exact hw.loadImage view s
  · exact hw.completeTask k t ht data error
  · exact hw.runPosted k a

theorem run_coherent (p : Platform) (es : List Event) (w : World)
    (h : (machine p).run {} es=some w) : Coherent p w :=
  (machine p).run_invariant (Coherent p) (step_coherent p) {} w es (start_coherent p) h

end ShareImage.Images
