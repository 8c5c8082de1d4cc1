import ShareImage.Images.Invariant

namespace ShareImage.Images

open Framework

/-- The download ends with an error, without data, or with data that is no image. -/
def downloadFails (p : Platform) (data : Option Data) (error : Option String) : Bool :=
  error.isSome || (data.bind p.image).isNone

/-- The calls whose download fails with the event. -/
def World.failures (p : Platform) (w : World) : Event → List Nat
  | .completeTask k data error =>
    if downloadFails p data error then (w.tasks[k]?.map Task.call).toList else []
  | _ => []

/-- The event completes a failed load: the call itself where its string is no URL, else the
completion of its download, and the block that this may have posted. -/
def World.fails (p : Platform) (w : World) (failed : List Nat) : Event → Bool
  | .loadImage _ urlString => (w.cached p urlString).isNone && (p.parse urlString).isNone
  | .completeTask _ data error => downloadFails p data error
  | .runPosted k => w.posted[k]?.any fun a => failed.contains a.call

/-- What the event would write is there already, or takes the place of no cached image. -/
def World.harmless (p : Platform) (w : World) : Event → Bool
  | .loadImage _ _ => true
  | .completeTask k data _ => w.tasks[k]?.all fun t => data.all fun imageData =>
    w.cached p t.url.absoluteString==none || w.cached p t.url.absoluteString==p.image imageData
  | .runPosted k => w.posted[k]?.all fun a => w.image a.view==a.image

/-- Every entry of the cache and the image of every view are still there. -/
structure World.Keeps (w v : World) : Prop where
  cache : ∀key image,w.cache.entry key=some image → v.cache.entry key=some image
  image : v.image=w.image

/-- In no state of the run does the completion of a failed load change an entry of the cache or
the image of a view. -/
def FailuresChangeNothing (p : Platform) (es : List Event) : Prop :=
  ∀pre e post w v,es=pre++e::post → (machine p).run {} pre=some w → w.step p e=some v →
    w.fails p ((machine p).log (World.failures p) {} pre) e=true → w.Keeps v

theorem loadImage_keeps (p : Platform) (w : World) (view : Nat) (s : String)
    (hmiss : w.cached p s=none) (h : p.parse s=none) : w.Keeps (w.loadImage p view s) := by
  rcases loadImage_cases p w view s with ⟨image,hhit,_⟩ | ⟨_,_,hl⟩ | ⟨url,_,hparse,_⟩
  · rw [hmiss] at hhit
    contradiction
  · rw [hl]
    exact ⟨fun s image hs => hs,rfl⟩
  · rw [h] at hparse
    contradiction

theorem completeTask_keeps_iff (p : Platform) (w : World) (k : Nat) (t : Task)
    (ht : w.tasks[k]?=some t) (data : Option Data) (error : Option String) :
    w.Keeps (w.completeTask p k t data error) ↔
      w.harmless p (.completeTask k data error)=true := by
  cases data with
  | none =>
    have hkeeps : w.Keeps (w.completeTask p k t none error) := ⟨fun s image hs => hs,rfl⟩
    have hharmless : w.harmless p (.completeTask k none error)=true := by
      simp [World.harmless,ht]
    exact ⟨fun _ => hharmless,fun _ => hkeeps⟩
  | some imageData =>
    have hkeeps : w.Keeps (w.completeTask p k t (some imageData) error) ↔ ∀key image,
        w.cache.entry key=some image → Function.update w.cache.entry
          (p.normal t.url.absoluteString) (p.image imageData) key=some image :=
      ⟨fun h => h.cache,fun h => ⟨h,rfl⟩⟩
    rw [hkeeps,update_keeps_iff]
    change w.cached p t.url.absoluteString=none ∨
      w.cached p t.url.absoluteString=p.image imageData ↔ _
    simp [World.harmless,ht]

theorem runPosted_keeps_iff (p : Platform) (w : World) (k : Nat) (a : Assignment)
    (ha : w.posted[k]?=some a) :
    w.Keeps (w.runPosted k a) ↔ w.harmless p (.runPosted k)=true := by
  have hkeeps : w.Keeps (w.runPosted k a) ↔ Function.update w.image a.view a.image=w.image :=
    ⟨fun h => h.image,fun h => ⟨fun s image hs => hs,h⟩⟩
  rw [hkeeps,Function.update_eq_self_iff]
  have hharmless : w.harmless p (.runPosted k)=true ↔ w.image a.view=a.image := by
    simp [World.harmless,ha]
  rw [hharmless]
  exact eq_comm

/-- One completion of a failed load. -/
theorem step_keeps_iff (p : Platform) (w v : World) (e : Event) (failed : List Nat)
    (h : w.step p e=some v) (hf : w.fails p failed e=true) :
    w.Keeps v ↔ w.harmless p e=true := by
  rcases step_cases p w v e h with ⟨view,s,rfl,rfl⟩ | ⟨k,t,data,error,rfl,ht,rfl⟩ | ⟨k,a,rfl,ha,rfl⟩
  · obtain ⟨hmiss,hparse⟩ : w.cached p s=none ∧ p.parse s=none := by
      simpa [World.fails] using hf
    exact ⟨fun _ => rfl,fun _ => loadImage_keeps p w view s hmiss hparse⟩
  · exact completeTask_keeps_iff p w k t ht data error
  · exact runPosted_keeps_iff p w k a ha

/-- An error comes without data: what `URLSession` does. -/
def Event.delivers : Event → Bool
  | .completeTask _ data error => data.isNone || error.isNone
  | _ => true

theorem Coherent.call_erased {p : Platform} {w : World} (hw : Coherent p w) (k : Nat) (t u : Task)
    (ht : w.tasks[k]?=some t) (hu : u∈w.tasks.eraseIdx k) : u.call≠t.call := by
  have hperm : ((t::w.tasks.eraseIdx k).map Task.call).Perm (w.tasks.map Task.call) :=
    (cons_eraseIdx_perm w.tasks k t ht).map Task.call
  have hnodup : ((t::w.tasks.eraseIdx k).map Task.call).Nodup :=
    hperm.nodup_iff.mpr (List.nodup_append.mp hw.once).1
  intro heq
  have hmem : t.call∈(w.tasks.eraseIdx k).map Task.call := by
    rw [←heq]
    exact List.mem_map_of_mem hu
  exact (List.nodup_cons.mp hnodup).1 hmem

theorem Coherent.call_answered {p : Platform} {w : World} (hw : Coherent p w) (t : Task)
    (r : Response) (ht : t∈w.tasks) (hr : r∈w.responses) : r.call≠t.call := by
  intro heq
  have hdisjoint := (List.nodup_append.mp hw.once).2.2
  exact hdisjoint t.call (List.mem_map_of_mem ht) r.call (List.mem_map_of_mem hr) heq.symm

/-- The calls in `failed` are over, and none of them has brought an image. -/
structure Blank (p : Platform) (w : World) (failed : List Nat) : Prop where
  lt : ∀c∈failed,c<w.calls.length
  task : ∀t∈w.tasks,t.call∉failed
  response : ∀r∈w.responses,r.call∈failed → p.image r.data=none

theorem mem_failures (p : Platform) (w : World) (k : Nat) (t : Task) (ht : w.tasks[k]?=some t)
    (data : Option Data) (error : Option String) :
    ∀c∈w.failures p (.completeTask k data error),c=t.call ∧ downloadFails p data error=true := by
  intro c hc
  by_cases hfails : downloadFails p data error=true
  · have hcall : c=t.call := by simpa [World.failures,hfails,ht] using hc
    exact ⟨hcall,hfails⟩
  · simp [World.failures,hfails] at hc

section Blank

variable {p : Platform} {w : World} {failed : List Nat} (hf : Blank p w failed)
include hf

theorem Blank.loadImage (view : Nat) (s : String) : Blank p (w.loadImage p view s) failed := by
  have hlt : ∀c∈failed,c<(w.calls++[(view,s)]).length := by
    intro c hc
    have hold := hf.lt c hc
    simp
    omega
  rcases loadImage_cases p w view s with ⟨image,_,hl⟩ | ⟨_,_,hl⟩ | ⟨url,_,_,hl⟩
  · rw [hl]
    exact ⟨hlt,hf.task,hf.response⟩
  · rw [hl]
    exact ⟨hlt,hf.task,hf.response⟩
  · rw [hl]
    refine ⟨hlt,?_,hf.response⟩
    intro t ht hmem
    rcases List.mem_append.mp ht with ht | ht
    · exact hf.task t ht hmem
    · have hnew : t=⟨w.calls.length,view,url⟩ := List.mem_singleton.mp ht
      subst hnew
      have hold : w.calls.length<w.calls.length := hf.lt _ hmem
      omega

theorem Blank.completeTask (hw : Coherent p w) (k : Nat) (t : Task) (ht : w.tasks[k]?=some t)
    (data : Option Data) (error : Option String)
    (he : (Event.completeTask k data error).delivers=true) :
    Blank p (w.completeTask p k t data error)
      (failed++w.failures p (.completeTask k data error)) := by
  have hmem : t∈w.tasks := List.mem_of_getElem? ht
  have hfailures := mem_failures p w k t ht data error
  refine ⟨?_,?_,?_⟩
  · intro c hc
    rcases List.mem_append.mp hc with hc | hc
    · exact hf.lt c hc
    · rw [(hfailures c hc).1]
      exact hw.call_lt t.call (List.mem_append_left _ (List.mem_map_of_mem hmem))
  · intro u hu hc
    have hold : u∈w.tasks := List.mem_of_mem_eraseIdx hu
    rcases List.mem_append.mp hc with hc | hc
    · exact hf.task u hold hc
    · exact hw.call_erased k t u ht hu (hfailures _ hc).1
  · intro r hr hc
    rcases mem_responses_completeTask p w k t data error r hr with hr | ⟨d,rfl,rfl⟩
    · rcases List.mem_append.mp hc with hc | hc
      · exact hf.response r hr hc
      · exact absurd (hfailures _ hc).1 (hw.call_answered t r hmem hr)
    · rcases List.mem_append.mp hc with hc | hc
      · exact absurd hc (hf.task t hmem)
      · have hfails := (hfailures _ hc).2
        have hnone : error=none := by simpa [Event.delivers] using he
        simpa [downloadFails,hnone] using hfails

end Blank

/-- What a failed download has posted assigns nil. -/
theorem failed_image (p : Platform) (es : List Event) (w : World)
    (h : (machine p).run {} es=some w) (hes : ∀e∈es,e.delivers=true) :
    ∀a∈w.posted,a.call∈(machine p).log (World.failures p) {} es → a.image=none := by
  have hblank : (∀e∈es,e.delivers=true) →
      Blank p w ((machine p).log (World.failures p) {} es) := by
    refine (machine p).run_history (fun es w => (∀e∈es,e.delivers=true) →
      Blank p w ((machine p).log (World.failures p) {} es)) {} ?_ ?_ es w h
    · intro _
      exact ⟨by simp [Machine.log],by simp,by simp⟩
    · intro es u e v hu hblank hstep hes
      have hold := hblank fun f hf => hes f (List.mem_append_left _ hf)
      have hc : Coherent p u := run_coherent p es u hu
      rw [Machine.log_concat _ _ _ u es e hu]
      rcases step_cases p u v e hstep with ⟨view,s,rfl,rfl⟩ | ⟨k,t,data,error,rfl,ht,rfl⟩ |
        ⟨k,a,rfl,_,rfl⟩
      · have hnone : u.failures p (.loadImage view s)=[] := rfl
        rw [hnone,List.append_nil]
        exact hold.loadImage view s
      · exact hold.completeTask hc k t ht data error (hes _ (by simp))
      · have hnone : u.failures p (.runPosted k)=[] := rfl
        rw [hnone,List.append_nil]
        exact ⟨hold.lt,hold.task,hold.response⟩
  intro a ha hc
  obtain ⟨_,r,hr,hrc,himage⟩ := (run_coherent p es w h).posted a ha
  rw [←himage]
  exact (hblank hes).response r hr (hrc ▸ hc)

/-- Data that is no image finds an entry for its URL, or a nil image a view that shows one. -/
def World.erases (p : Platform) (w : World) : Event → Bool
  | .loadImage _ _ => false
  | .completeTask k data _ => w.tasks[k]?.any fun t => data.any fun imageData =>
    (p.image imageData).isNone && (w.cached p t.url.absoluteString).isSome
  | .runPosted k => w.posted[k]?.any fun a => a.image.isNone && (w.image a.view).isSome

/-- Where errors come without data, a failed load has no image to write. -/
theorem harmless_iff_not_erases (p : Platform) (pre : List Event) (w v : World) (e : Event)
    (h : (machine p).run {} pre=some w) (hpre : ∀f∈pre,f.delivers=true) (he : e.delivers=true)
    (hstep : w.step p e=some v)
    (hf : w.fails p ((machine p).log (World.failures p) {} pre) e=true) :
    w.harmless p e=true ↔ w.erases p e=false := by
  rcases step_cases p w v e hstep with ⟨view,s,rfl,_⟩ | ⟨k,t,data,error,rfl,ht,_⟩ | ⟨k,a,rfl,ha,_⟩
  · exact ⟨fun _ => rfl,fun _ => rfl⟩
  · cases data with
    | none => simp [World.harmless,World.erases,ht]
    | some imageData =>
      have herror : error=none := by simpa [Event.delivers] using he
      have hdata : p.image imageData=none := by
        simpa [World.fails,downloadFails,herror] using hf
      simp [World.harmless,World.erases,ht,hdata]
  · have hcall : a.call∈(machine p).log (World.failures p) {} pre := by
      simpa [World.fails,ha] using hf
    have himage : a.image=none := failed_image p pre w h hpre a (List.mem_of_getElem? ha) hcall
    simp [World.harmless,World.erases,ha,himage]

/-- In a run, failed loads change nothing exactly when each data that a failed download brings
finds no entry for its URL or one with the image it decodes to, and each block that a failed
download posted finds its view with the image that it assigns. Where errors come without data: when
no data that is no image finds an entry for its URL, and no block of a failed download finds its
view with an image. -/
theorem failures_change_nothing_iff (p : Platform) (es : List Event) (w : World)
    (h : (machine p).run {} es=some w) :
    (FailuresChangeNothing p es ↔ ((machine p).logging (World.failures p)).Meets
      (fun x e => x.1.fails p x.2 e=true → x.1.harmless p e=true) ({},[]) es) ∧
    ((∀e∈es,e.delivers=true) →
      (FailuresChangeNothing p es ↔ ((machine p).logging (World.failures p)).Meets
        (fun x e => x.1.fails p x.2 e=true → x.1.erases p e=false) ({},[]) es)) := by
  rw [Machine.meets_iff,Machine.meets_iff]
  have hsplit (pre : List Event) (e : Event) (post : List Event) (x : World × List Nat)
      (hes : es=pre++e::post)
      (hx : ((machine p).logging (World.failures p)).run ({},[]) pre=some x) :
      ∃v,(machine p).run {} pre=some x.1 ∧ x.2=(machine p).log (World.failures p) {} pre ∧
        x.1.step p e=some v := by
    rw [Machine.logging_run] at hx
    obtain ⟨u,hu,rfl⟩ := Option.map_eq_some_iff.mp hx
    rw [hes] at h
    obtain ⟨u',hu',hrest⟩ := (machine p).run_split {} w pre (e::post) h
    have huu : u'=u := Option.some.inj (hu'.symm.trans hu)
    subst huu
    obtain ⟨v,hv,_⟩ := (machine p).run_cons_split u' w e post hrest
    exact ⟨v,hu,rfl,hv⟩
  have hiff : FailuresChangeNothing p es ↔ ∀pre e post x,es=pre++e::post →
      ((machine p).logging (World.failures p)).run ({},[]) pre=some x →
      x.1.fails p x.2 e=true → x.1.harmless p e=true := by
    constructor
    · intro hall pre e post x hes hx hf
      obtain ⟨v,hu,hlog,hv⟩ := hsplit pre e post x hes hx
      have hkeeps : x.1.Keeps v := hall pre e post x.1 v hes hu hv (hlog ▸ hf)
      exact (step_keeps_iff p x.1 v e _ hv hf).mp hkeeps
    · intro hmeets pre e post u v hes hu hv hf
      have hx : ((machine p).logging (World.failures p)).run ({},[]) pre=
          some (u,[]++(machine p).log (World.failures p) {} pre) := by
        rw [Machine.logging_run,hu]
        rfl
      have hharmless : u.harmless p e=true := hmeets pre e post _ hes hx hf
      exact (step_keeps_iff p u v e _ hv hf).mpr hharmless
  refine ⟨hiff,?_⟩
  intro hdelivers
  rw [hiff]
  refine forall₄_congr fun pre e post x => forall₃_congr fun hes hx hf => ?_
  obtain ⟨v,hu,hlog,hv⟩ := hsplit pre e post x hes hx
  rw [hlog] at hf
  have hpre : ∀f∈pre,f.delivers=true := fun f hf => hdelivers f (by simp [hes,hf])
  exact harmless_iff_not_erases p pre x.1 v e hu hpre (hdelivers e (by simp [hes])) hv hf

/-- A string that is no URL, a download that breaks off and one that brings no image. -/
def broken : List Event :=
  [.loadImage 0 "",.loadImage 0 "https://i/1",.loadImage 1 "https://i/1",
    .completeTask 0 none (some "timed out"),.completeTask 0 (some ⟨[]⟩) none,.runPosted 0]

theorem failures_change_nothing_broken : FailuresChangeNothing .plain broken :=
  ((failures_change_nothing_iff .plain broken _ rfl).2 (by decide)).mpr (by decide)

/-- A view shows the image of a string. Then it and another view load a second string: the other's
download succeeds, and then its own brings data that is no image. -/
def spoiled : List Event :=
  [.loadImage 0 "https://i/1",.completeTask 0 (some ⟨[5]⟩) none,.runPosted 0,
    .loadImage 0 "https://i/2",.loadImage 1 "https://i/2",.completeTask 1 (some ⟨[7]⟩) none,
    .completeTask 0 (some ⟨[]⟩) none,.runPosted 1]

/-- The failed load takes the second string's entry out of the cache, and then the first string's
image off the view. -/
theorem not_failures_change_nothing :
    (∃w v,(machine .plain).run {} (spoiled.take 6)=some w ∧
      w.step .plain (.completeTask 0 (some ⟨[]⟩) none)=some v ∧
      w.cached .plain "https://i/2"=some {pixels := [7]} ∧ v.cached .plain "https://i/2"=none) ∧
    (∃w v,(machine .plain).run {} (spoiled.take 7)=some w ∧
      w.step .plain (.runPosted 1)=some v ∧
      w.image 0=some {pixels := [5]} ∧ v.image 0=none) ∧
    ¬∀(p : Platform) (es : List Event) (w : World),(machine p).run {} es=some w →
      FailuresChangeNothing p es := by
  refine ⟨⟨_,_,rfl,rfl,by decide,by decide⟩,⟨_,_,rfl,rfl,by decide,by decide⟩,?_⟩
  intro h
  have hkeeps := h .plain spoiled _ rfl (spoiled.take 6) (.completeTask 0 (some ⟨[]⟩) none)
    [.runPosted 1] _ _ rfl rfl rfl (by decide)
  have hentry := hkeeps.cache "https://i/2" {pixels := [7]} (by decide)
  exact absurd hentry (by decide)

end ShareImage.Images
