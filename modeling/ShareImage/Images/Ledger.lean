import ShareImage.Images.Transparency
import Mathlib.Data.List.Range

namespace ShareImage.Images

open Framework

/-- The calls that end with the event: in the cache, as no URL, with a download that brings no data,
or with the block on the main queue. -/
def World.ended (p : Platform) (w : World) : Event → List Nat
  | .loadImage _ s =>
    match UIImageView.loadImage p w.cache s with
    | .fetch _ => []
    | _ => [w.calls.length]
  | .completeTask k data _ =>
    match data with
    | none => w.tasks[k]?.toList.map Task.call
    | some _ => []
  | .runPosted k => w.posted[k]?.toList.map Assignment.call

/-- The calls whose download or posted block is in flight. -/
def World.inFlight (w : World) : List Nat := w.tasks.map Task.call++w.posted.map Assignment.call

/-- The calls that have ended, in order. -/
def ended (p : Platform) (es : List Event) : List Nat :=
  (machine p).log (World.ended p) {} es

/-- Each call so far has ended once, or is in flight once. -/
def Balanced (done : List Nat) (w : World) : Prop :=
  (done++w.inFlight).Perm (List.range w.calls.length)

theorem perm_insert_middle (xs ys zs : List Nat) (a : Nat) :
    (xs++(ys++a::zs)).Perm (a::(xs++(ys++zs))) := by
  rw [←List.append_assoc,←List.append_assoc]
  exact List.perm_middle

theorem Balanced.call {done : List Nat} {w : World} (h : Balanced done w) :
    (w.calls.length::(done++w.inFlight)).Perm (List.range (w.calls.length+1)) := by
  rw [List.range_succ]
  exact (h.cons _).trans (List.perm_append_singleton ..).symm

/-- A call ends at once, or its download is in flight. -/
theorem Balanced.loadImage {p : Platform} {done : List Nat} {w : World} (h : Balanced done w)
    (view : Nat) (s : String) :
    Balanced (done++w.ended p (.loadImage view s)) (w.loadImage p view s) := by
  have hcalls : (w.loadImage p view s).calls.length=w.calls.length+1 := by
    rw [(loadImage_rest p w view s).1,List.length_append]
    rfl
  unfold Balanced
  rw [hcalls]
  apply List.Perm.trans _ h.call
  rcases loadImage_cases p w view s with ⟨image,hhit,hl⟩ | ⟨hmiss,hparse,hl⟩ | ⟨url,hmiss,hparse,hl⟩
  · have hended : w.ended p (.loadImage view s)=[w.calls.length] := by
      simp [World.ended,UIImageView.loadImage,hhit]
    rw [hended,hl,List.append_assoc]
    exact List.perm_middle
  · have hended : w.ended p (.loadImage view s)=[w.calls.length] := by
      simp [World.ended,UIImageView.loadImage,hmiss,hparse]
    rw [hended,hl,List.append_assoc]
    exact List.perm_middle
  · have hended : w.ended p (.loadImage view s)=[] := by
      simp [World.ended,UIImageView.loadImage,hmiss,hparse]
    have hflight : (w.loadImage p view s).inFlight=
        w.tasks.map Task.call++w.calls.length::w.posted.map Assignment.call := by
      rw [hl]
      simp [World.inFlight]
    rw [hended,hflight,List.append_nil]
    exact perm_insert_middle ..

/-- The call of a completed download ends, or its block is in flight. -/
theorem Balanced.completeTask {p : Platform} {done : List Nat} {w : World} (h : Balanced done w)
    (k : Nat) (t : Task) (ht : w.tasks[k]?=some t) (data : Option Data) (error : Option String) :
    Balanced (done++w.ended p (.completeTask k data error)) (w.completeTask p k t data error) := by
  have hold : (t.call::(w.tasks.eraseIdx k).map Task.call).Perm (w.tasks.map Task.call) :=
    (cons_eraseIdx_perm w.tasks k t ht).map Task.call
  apply List.Perm.trans _ h
  have hbefore : (t.call::(done++((w.tasks.eraseIdx k).map Task.call++
      w.posted.map Assignment.call))).Perm (done++w.inFlight) := by
    apply List.perm_middle.symm.trans
    exact (hold.append_right (w.posted.map Assignment.call)).append_left done
  apply List.Perm.trans _ hbefore
  cases data with
  | none =>
    have hended : w.ended p (.completeTask k none error)=[t.call] := by
      simp [World.ended,ht]
    rw [hended,List.append_assoc]
    have hflight : (w.completeTask p k t none error).inFlight=
        (w.tasks.eraseIdx k).map Task.call++w.posted.map Assignment.call := by
      simp [World.inFlight,World.completeTask,UIImageView.taskCompletion]
    rw [hflight]
    exact List.perm_middle
  | some d =>
    have hended : w.ended p (.completeTask k (some d) error)=[] := rfl
    have hflight : (w.completeTask p k t (some d) error).inFlight=
        (w.tasks.eraseIdx k).map Task.call++(w.posted.map Assignment.call++[t.call]) := by
      simp [World.inFlight,World.completeTask,UIImageView.taskCompletion]
    rw [hended,hflight,List.append_nil]
    have hmove := perm_insert_middle (done++(w.tasks.eraseIdx k).map Task.call)
      (w.posted.map Assignment.call) [] t.call
    simpa [List.append_assoc] using hmove

theorem Balanced.runPosted {p : Platform} {done : List Nat} {w : World} (h : Balanced done w)
    (k : Nat) (a : Assignment) (ha : w.posted[k]?=some a) :
    Balanced (done++w.ended p (.runPosted k)) (w.runPosted k a) := by
  have hold : (a.call::(w.posted.eraseIdx k).map Assignment.call).Perm
      (w.posted.map Assignment.call) := (cons_eraseIdx_perm w.posted k a ha).map Assignment.call
  have hended : w.ended p (.runPosted k)=[a.call] := by
    simp [World.ended,ha]
  apply List.Perm.trans _ h
  rw [hended,List.append_assoc]
  apply List.Perm.append_left done
  have hmiddle : (a.call::(w.tasks.map Task.call++
      (w.posted.eraseIdx k).map Assignment.call)).Perm (w.tasks.map Task.call++
      (a.call::(w.posted.eraseIdx k).map Assignment.call)) := List.perm_middle.symm
  exact hmiddle.trans (hold.append_left (w.tasks.map Task.call))

theorem step_balanced (p : Platform) (done : List Nat) (w v : World) (e : Event)
    (hw : Balanced done w) (h : w.step p e=some v) : Balanced (done++w.ended p e) v := by
  rcases step_cases p w v e h with ⟨view,s,rfl,rfl⟩ | ⟨k,t,data,error,rfl,ht,rfl⟩ | ⟨k,a,rfl,ha,rfl⟩
  · exact hw.loadImage view s
  · exact hw.completeTask k t ht data error
  · exact hw.runPosted k a ha

theorem run_balanced (p : Platform) (es : List Event) (w : World)
    (h : (machine p).run {} es=some w) : Balanced (ended p es) w := by
  have start : Balanced [] {} := List.Perm.nil
  apply (machine p).run_history (fun es w => Balanced (ended p es) w) {} start _ es w h
  intro es u e t hu hbalanced hstep
  have hlog : ended p (es++[e])=ended p es++u.ended p e :=
    (machine p).log_concat (World.ended p) _ u es e hu
  rw [hlog]
  exact step_balanced p _ u t e hbalanced hstep

/-- No call of `loadImage(with:)` is lost or ends twice: it has ended, once, or it is in flight,
once. With nothing in flight every call has ended. -/
theorem each_call_ends_once (p : Platform) (es : List Event) (w : World)
    (h : (machine p).run {} es=some w) :
    (ended p es).Nodup ∧ (∀call∈ended p es,call∉w.inFlight) ∧
    (∀call,call<w.calls.length ↔ call∈ended p es ∨ call∈w.inFlight) ∧
    (w.inFlight=[] → (ended p es).Perm (List.range w.calls.length)) := by
  have hbalanced : Balanced (ended p es) w := run_balanced p es w h
  have hnodup := hbalanced.nodup_iff.mpr List.nodup_range
  obtain ⟨hended,_,hapart⟩ := List.nodup_append.mp hnodup
  refine ⟨hended,?_,?_,?_⟩
  · intro call hcall hflight
    exact hapart call hcall call hflight rfl
  · intro call
    rw [←List.mem_range,←hbalanced.mem_iff,List.mem_append]
  · intro hflight
    rw [Balanced,hflight,List.append_nil] at hbalanced
    exact hbalanced

theorem each_call_ends_once_loadedTwice :
    ∃w,(machine .plain).run {} loadedTwice=some w ∧ w.inFlight=[0] ∧
      ended .plain loadedTwice=[1,2] ∧ (ended .plain loadedTwice).Nodup := by
  refine ⟨_,rfl,rfl,rfl,?_⟩
  exact (each_call_ends_once .plain loadedTwice _ rfl).1

end ShareImage.Images
