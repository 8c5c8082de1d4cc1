import ShareImage.SignUp.Solo

namespace ShareImage.SignUps

open Framework

/-- How many acts there are until the stage is over: an answer and a completion for each step. -/
def Stage.remaining : Stage → Nat
  | .createUser none => 8
  | .createUser (some _) => 7
  | .putData _ none => 6
  | .putData _ (some _) => 5
  | .downloadURL _ none => 4
  | .downloadURL _ (some _) => 3
  | .updateChildValues _ _ none => 2
  | .updateChildValues _ _ (some _) => 1

def Act.isAnswer : Act → Bool
  | .answer _ => true
  | .complete => false

/-- Every act takes the sign-up one further: an answer while it waits for one, and else a
completion, which may be its last. -/
structure Proceeds (f : Flow) (x : Act) (g : Flow) : Prop where
  unfinished : f.finished=false
  turn : x.isAnswer=true ↔ f.stage.remaining%2=0
  remaining : g.stage.remaining+1=f.stage.remaining+g.finished.toNat
  waits : g.stage.remaining%2=0 → g.finished=false

theorem answer_proceeds (s : Services) (i : Nat) (f : Flow) (outcome : Outcome)
    (next : Flow × Services) (hwaits : f.stage.remaining%2=0 → f.finished=false)
    (h : f.answer s i outcome=some next) : Proceeds f (.answer outcome) next.1 := by
  have build (hturn : f.stage.remaining%2=0) (hfinished : next.1.finished=f.finished)
      (hremaining : next.1.stage.remaining+1=f.stage.remaining) :
      Proceeds f (.answer outcome) next.1 := by
    have hgoing : f.finished=false := hwaits hturn
    have hgoing' : next.1.finished=false := hfinished.trans hgoing
    refine ⟨hgoing,?_,?_,fun _ => hgoing'⟩
    · simpa [Act.isAnswer] using hturn
    · simpa [hgoing'] using hremaining
  unfold Flow.answer at h
  split at h
  case h_1 heq | h_10 heq =>
    split at h
    · contradiction
    · cases h
      exact build (by simp [heq,Stage.remaining]) rfl (by simp [heq,Stage.remaining])
  case h_5 heq =>
    obtain ⟨o,_,hnext⟩ := Option.map_eq_some_iff.mp h
    subst hnext
    exact build (by simp [heq,Stage.remaining]) rfl (by simp [heq,Stage.remaining])
  case h_13 => contradiction
  all_goals
    rename_i heq
    cases h
    exact build (by simp [heq,Stage.remaining]) rfl (by simp [heq,Stage.remaining])

theorem complete_proceeds (i : Nat) (f : Flow) (next : Flow × Services)
    (h : f.complete i=some next) : Proceeds f .complete next.1 := by
  have hgoing : f.finished=false := by
    unfold Flow.complete at h
    split at h
    · contradiction
    · rename_i hfinished
      simpa using hfinished
  have last (hturn : f.stage.remaining%2=1) (hstage : next.1.stage=f.stage)
      (hfinished : next.1.finished=true) : Proceeds f .complete next.1 := by
    refine ⟨hgoing,?_,?_,?_⟩
    · simp [Act.isAnswer,hturn]
    · simp [hstage,hfinished]
    · intro heven
      rw [hstage] at heven
      omega
  have further (hturn : f.stage.remaining%2=1) (hfinished : next.1.finished=f.finished)
      (hremaining : next.1.stage.remaining+1=f.stage.remaining) :
      Proceeds f .complete next.1 := by
    have hgoing' : next.1.finished=false := hfinished.trans hgoing
    refine ⟨hgoing,?_,?_,fun _ => hgoing'⟩
    · simp [Act.isAnswer,hturn]
    · simpa [hgoing'] using hremaining
  unfold Flow.complete at h
  rw [if_neg (by simp [hgoing])] at h
  split at h
  case h_4 heq =>
    cases h
    exact last (by simp [heq,Stage.remaining]) rfl rfl
  case h_5 => contradiction
  all_goals
    rename_i heq
    split at h
    · cases h
      exact further (by simp [heq,Stage.remaining]) rfl (by simp [heq,Stage.remaining])
    · cases h
      exact last (by simp [heq,Stage.remaining]) rfl rfl

theorem act_proceeds (s : Services) (i : Nat) (f : Flow) (x : Act) (next : Flow × Services)
    (hwaits : f.stage.remaining%2=0 → f.finished=false) (h : f.act s i x=some next) :
    Proceeds f x next.1 := by
  cases x with
  | answer outcome => exact answer_proceeds s i f outcome next hwaits h
  | complete => exact complete_proceeds i f next h

/-- The acts so far, told by the stage: answers and completions in turn. -/
structure InTurn (xs : List Act) (f : Flow) : Prop where
  length : xs.length+f.stage.remaining=8+f.finished.toNat
  turn : ∀k x,xs[k]?=some x → (x.isAnswer=true ↔ k%2=0)
  waits : f.stage.remaining%2=0 → f.finished=false

theorem InTurn.act {xs : List Act} {f g : Flow} {x : Act} (h : InTurn xs f)
    (hx : Proceeds f x g) : InTurn (xs++[x]) g where
  length := by
    have hbefore := h.length
    have hafter := hx.remaining
    rw [hx.unfinished,Bool.toNat_false] at hbefore
    rw [List.length_append,List.length_singleton]
    omega
  turn := by
    intro k y hy
    by_cases hk : k<xs.length
    · rw [List.getElem?_append_left hk] at hy
      exact h.turn k y hy
    · have hlt : k<(xs++[x]).length := (List.getElem?_eq_some_iff.mp hy).1
      rw [List.length_append,List.length_singleton] at hlt
      have hlast : k=xs.length := by omega
      subst hlast
      have hyx : y=x := by simpa using hy.symm
      have hbefore := h.length
      rw [hx.unfinished,Bool.toNat_false] at hbefore
      rw [hyx,hx.turn]
      omega
  waits := hx.waits

theorem run_inTurn (i : Nat) (c : SignUp) (xs : List Act) (s : Solo)
    (h : (Solo.machine i).run ⟨{captured := c},{}⟩ xs=some s) : InTurn xs s.flow := by
  have start : InTurn [] ({captured := c} : Flow) := by
    refine ⟨rfl,?_,fun _ => rfl⟩
    intro k x hx
    simp at hx
  apply (Solo.machine i).run_history (fun xs s => InTurn xs s.flow) _ start _ xs s h
  intro xs u x t _ hu hstep
  obtain ⟨next,hnext,ht⟩ := Option.map_eq_some_iff.mp hstep
  rw [←ht]
  exact hu.act (act_proceeds u.effects i u.flow x next hu.waits hnext)

/-- In every run the requests of a sign-up are answered once each and in the order of the chain, and
each answer is completed once, before the next request: the number of answers and completions so far
is told by the stage and is eight at most. -/
theorem acts_in_turn (p : Platform) (es : List Event) (w : World) (i : Nat) (f : Flow)
    (h : (machine p).run (World.launch p) es=some w) (hf : w.flows[i]?=some f) :
    (acts i es).length+f.stage.remaining=8+f.finished.toNat ∧
    (acts i es).length≤8 ∧
    ∀k x,(acts i es)[k]?=some x → (x.isAnswer=true ↔ k%2=0) := by
  have hreplays := (run_replays p es w i h).started f hf
  have hturn : InTurn (acts i es) f := run_inTurn i f.captured (acts i es) _ hreplays
  refine ⟨hturn.length,?_,hturn.turn⟩
  have hlength := hturn.length
  have hpositive : f.finished.toNat≤f.stage.remaining := by
    cases hfinished : f.finished with
    | false => exact Nat.zero_le _
    | true =>
      by_contra hzero
      have heven : f.stage.remaining%2=0 := by
        rw [Bool.toNat_true] at hzero
        omega
      rw [hturn.waits heven] at hfinished
      contradiction
  omega

theorem acts_in_turn_disturbed :
    ∃w f,(machine .plain).run (World.launch .plain) disturbed=some w ∧ w.flows[1]?=some f ∧
      f.finished=true ∧ (acts 1 disturbed).length+f.stage.remaining=9 := by
  refine ⟨_,_,rfl,rfl,rfl,?_⟩
  exact (acts_in_turn .plain disturbed _ 1 _ rfl rfl).1

theorem Stage.remaining_pos (stage : Stage) : 0<stage.remaining := by
  unfold Stage.remaining
  split <;> omega

theorem Reached.waits {lossy : Bool} {i : Nat} {c : SignUp} {stage : Stage} {finished : Bool}
    {s : Services} (h : Reached lossy i c stage finished s) :
    stage.remaining%2=0 → finished=false := by
  intro heven
  cases h <;> simp_all [Stage.remaining]

/-- How many acts the sign-up can still have. -/
def Flow.remaining (f : Flow) : Nat := if f.finished then 0 else f.stage.remaining

def World.remaining (w : World) : Nat := (w.flows.map Flow.remaining).sum

/-- The event answers or completes a request. -/
def Event.acts : Event → Bool
  | .answer _ _ | .complete _ => true
  | _ => false

theorem Proceeds.decreases {f g : Flow} {x : Act} (h : Proceeds f x g) :
    g.remaining<f.remaining := by
  have hpos := f.stage.remaining_pos
  have hremaining := h.remaining
  unfold Flow.remaining
  rw [h.unfinished]
  cases hfinished : g.finished with
  | true => simpa using hpos
  | false =>
    rw [hfinished,Bool.toNat_false] at hremaining
    simp only [Bool.false_eq_true,if_false]
    omega

theorem acts_eq_false (e : Event) (h : ∀i,e.onFlow i=none) : e.acts=false := by
  cases e with
  | answer j outcome => simpa [Event.onFlow] using h j
  | complete j => simpa [Event.onFlow] using h j
  | _ => rfl

/-- Each act brings the sign-ups nearer to their ends, and nothing but a new one takes them back. -/
theorem step_remaining (p : Platform) (w v : World) (e : Event) (hw : Coherent true w)
    (h : w.step p e=some v) (he : e.generates=none) :
    e.acts.toNat+v.remaining≤w.remaining := by
  rcases step_acts p w v e h with ⟨hnone,_,hflows⟩ | ⟨j,f,x,next,hf,hx,rfl,_⟩
  · have hsame : v.flows=w.flows := by
      rcases hflows with hsame | ⟨hgenerates,_⟩
      · exact hsame
      · exact absurd he hgenerates
    rw [acts_eq_false e hnone,World.remaining,World.remaining,hsame]
    simp
  · have hless := (act_proceeds w.services j f x next (hw.reached j f hf).waits hx).decreases
    have hsum := sum_map_set Flow.remaining w.flows j f next.1 hf
    have hone : e.acts.toNat≤1 := Bool.toNat_le _
    change e.acts.toNat+((w.flows.set j next.1).map Flow.remaining).sum≤_
    unfold World.remaining
    omega

/-- A service can always refuse. -/
theorem answer_enabled (s : Services) (i : Nat) (f : Flow) (h : f.stage.remaining%2=0)
    (error : String) : ∃next,f.answer s i (.failure error)=some next := by
  obtain ⟨c,stage,finished⟩ := f
  cases stage with
  | createUser reply =>
    cases reply with
    | none => exact ⟨_,rfl⟩
    | some reply => simp [Stage.remaining] at h
  | putData user reply =>
    cases reply with
    | none => exact ⟨_,rfl⟩
    | some reply => simp [Stage.remaining] at h
  | downloadURL user reply =>
    cases reply with
    | none => exact ⟨_,rfl⟩
    | some reply => simp [Stage.remaining] at h
  | updateChildValues uid values reply =>
    cases reply with
    | none => exact ⟨_,rfl⟩
    | some reply => simp [Stage.remaining] at h

theorem complete_enabled (i : Nat) (f : Flow) (h : f.stage.remaining%2=1)
    (hf : f.finished=false) : ∃next,f.complete i=some next := by
  unfold Flow.complete
  rw [if_neg (by simp [hf])]
  split
  case h_4 => exact ⟨_,rfl⟩
  case h_5 hother =>
    cases hstage : f.stage with
    | createUser reply => cases reply <;> simp_all [Stage.remaining]
    | putData user reply => cases reply <;> simp_all [Stage.remaining]
    | downloadURL user reply => cases reply <;> simp_all [Stage.remaining]
    | updateChildValues uid values reply => cases reply <;> simp_all [Stage.remaining]
  all_goals split <;> exact ⟨_,rfl⟩

/-- While some sign-up is not finished, it can be answered or completed. -/
theorem act_enabled (p : Platform) (w : World) (f : Flow) (hf : f∈w.flows)
    (h : f.finished=false) : ∃e v,e.acts=true ∧ w.step p e=some v := by
  obtain ⟨i,hi⟩ := List.mem_iff_getElem?.mp hf
  by_cases hturn : f.stage.remaining%2=0
  · obtain ⟨next,hnext⟩ := answer_enabled w.services i f hturn ""
    refine ⟨.answer i (.failure ""),w.advance i next,rfl,?_⟩
    simp [World.step,hi,hnext]
  · obtain ⟨next,hnext⟩ := complete_enabled i f (by omega) h
    refine ⟨.complete i,w.advance i next,rfl,?_⟩
    simp [World.step,hi,hnext]

/-- Without a new sign-up, every act of a run is one of those that remained. -/
theorem run_remaining (p : Platform) (es : List Event) (w v : World) (hw : Coherent true w)
    (h : (machine p).run w es=some v) (hes : ∀e∈es,e.generates=none) :
    es.countP Event.acts+v.remaining≤w.remaining := by
  induction es generalizing w with
  | nil =>
    have hvw : w=v := Option.some.inj h
    simp [hvw]
  | cons e es ih =>
    obtain ⟨u,hu,hrun⟩ := (machine p).run_cons_split w v e es h
    have hstep := step_remaining p w u e hw hu (hes e List.mem_cons_self)
    have htail := ih u (step_coherent true p w e u hw (fun _ => rfl) hu) hrun
      fun e he => hes e (List.mem_cons_of_mem _ he)
    rw [List.countP_cons]
    cases hacts : e.acts with
    | false =>
      simp only [Bool.false_eq_true,if_false]
      omega
    | true =>
      rw [hacts,Bool.toNat_true] at hstep
      simp only [if_true]
      omega

/-- From every reachable state the sign-ups come to their ends: without a new one there are at most
as many answers and completions as remain, in whatever order, and one of them is possible until
every sign-up is finished. -/
theorem sign_ups_end (p : Platform) (pre es : List Event) (w v : World)
    (hpre : (machine p).run (World.launch p) pre=some w) (h : (machine p).run w es=some v)
    (hes : ∀e∈es,e.generates=none) :
    es.countP Event.acts+v.remaining≤w.remaining ∧
    ((∀e u,e.acts=true → v.step p e≠some u) → ∀f∈v.flows,f.finished=true) := by
  refine ⟨run_remaining p es w v (run_coherent p pre w hpre) h hes,?_⟩
  intro hstuck f hf
  by_contra hfinished
  obtain ⟨e,u,he,hu⟩ := act_enabled p v f hf (by simpa using hfinished)
  exact hstuck e u he hu

theorem sign_ups_end_undisturbed :
    ∃w v,(machine .plain).run (World.launch .plain) (undisturbed.take 6)=some w ∧
      (machine .plain).run w (undisturbed.drop 6)=some v ∧ w.remaining=8 ∧ v.remaining=6 ∧
      (undisturbed.drop 6).countP Event.acts+v.remaining≤w.remaining := by
  refine ⟨_,_,rfl,rfl,rfl,rfl,?_⟩
  exact (sign_ups_end .plain (undisturbed.take 6) (undisturbed.drop 6) _ _ rfl rfl (by decide)).1

end ShareImage.SignUps
