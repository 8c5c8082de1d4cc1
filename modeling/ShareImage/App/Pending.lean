import ShareImage.App.World
import ShareImage.SignUp.Solo
import ShareImage.Table.Rows

namespace ShareImage

namespace SignUps

open Framework

/-- What an act does to the request of `updateChildValues`: nothing, it is sent with the record, or
it is answered. -/
inductive Saves (own : Services) (i : Nat) (f : Flow) : Act → Flow × Services → Prop
  | not (x : Act) (next : Flow × Services) (hf : f.saving=false) (hg : next.1.saving=false)
      (hs : next.2.writes=[]) : Saves own i f x next
  | sends (next : Flow × Services) (r : Record) (hf : f.saving=false) (hg : next.1.saving=true)
      (hs : next.2.writes=[r]) (hr : r.flow=i) (hown : own.writes=[]) : Saves own i f .complete next
  | answered (outcome : Outcome) (next : Flow × Services) (ho : outcome≠.nilURL)
      (hf : f.saving=true) (hg : next.1.saving=false) (hs : next.2.writes=[]) :
      Saves own i f (.answer outcome) next

theorem answer_saves (s own : Services) (i : Nat) (f : Flow) (outcome : Outcome)
    (next : Flow × Services) (h : f.answer s i outcome=some next) :
    Saves own i f (.answer outcome) next := by
  unfold Flow.answer at h
  split at h
  case h_1 heq | h_10 heq =>
    split at h
    · contradiction
    · cases h
      exact .not _ _ (by simp [Flow.saving,heq]) rfl rfl
  case h_5 heq =>
    obtain ⟨o,_,hnext⟩ := Option.map_eq_some_iff.mp h
    subst hnext
    exact .not _ _ (by simp [Flow.saving,heq]) rfl rfl
  case h_8 heq =>
    cases h
    exact .answered _ _ (by simp) (by simp [Flow.saving,heq]) rfl rfl
  case h_9 heq | h_12 heq =>
    cases h
    exact .answered _ _ (by simp) (by simp [Flow.saving,heq]) rfl rfl
  case h_13 => contradiction
  all_goals
    rename_i heq
    cases h
    exact .not _ _ (by simp [Flow.saving,heq]) rfl rfl

theorem complete_saves (lossy : Bool) (own : Services) (i : Nat) (f : Flow)
    (next : Flow × Services) (hr : f.Reached lossy i own) (h : f.complete i=some next) :
    Saves own i f .complete next := by
  obtain ⟨c,stage,finished⟩ := f
  cases finished with
  | true => contradiction
  | false =>
    simp only [Flow.Reached] at hr
    cases hr with
    | resolved uid url =>
      cases h
      exact .sends _ _ rfl rfl rfl rfl rfl
    | refused | created | unstored | stored | unresolved | unsaved | saved | createdUnseen |
        storedUnseen | savedUnseen =>
      cases h
      exact .not _ _ rfl rfl rfl
    | creating | uploading | resolving | saving => contradiction

theorem act_saves (lossy : Bool) (s own : Services) (i : Nat) (f : Flow) (x : Act)
    (next : Flow × Services) (hr : f.Reached lossy i own) (h : f.act s i x=some next) :
    Saves own i f x next := by
  cases x with
  | answer outcome => exact answer_saves s own i f outcome next h
  | complete => exact complete_saves lossy own i f next hr h

def Act.event (i : Nat) : Act → Event
  | .answer outcome => .answer i outcome
  | .complete => .complete i

theorem event_of_onFlow (e : Event) (i : Nat) (x : Act) (h : e.onFlow i=some x) :
    e=x.event i := by
  cases e with
  | answer j outcome =>
    simp only [Event.onFlow] at h
    split at h
    · rename_i hji
      cases h
      rw [hji]
      rfl
    · contradiction
  | complete j =>
    simp only [Event.onFlow] at h
    split at h
    · rename_i hji
      cases h
      rw [hji]
      rfl
    · contradiction
  | _ => contradiction

theorem change_eq_none (w : World) (e : Event) (h : ∀i,e.onFlow i=none) : w.change e=none := by
  cases e with
  | answer j outcome => simpa [Event.onFlow] using h j
  | complete j => simpa [Event.onFlow] using h j
  | _ => rfl

theorem saving_set (flows : List Flow) (i k : Nat) (g : Flow) (hi : i<flows.length) :
    (flows.set i g)[k]?.any Flow.saving=
      if k=i then g.saving else flows[k]?.any Flow.saving := by
  by_cases hk : k=i
  · subst hk
    simp [hi]
  · rw [List.getElem?_set_ne (Ne.symm hk),if_neg hk]

theorem advance_writes (w : World) (i : Nat) (next : Flow × Services) :
    (w.advance i next).services.writes=w.services.writes++next.2.writes :=
  Services.append_writes ..

/-- The records unanswered after sign-up `i` has advanced. -/
theorem unanswered_advance (w : World) (i : Nat) (f : Flow) (next : Flow × Services)
    (hf : w.flows[i]?=some f) :
    (w.advance i next).unanswered=(w.services.writes++next.2.writes).filter fun r =>
      if r.flow=i then next.1.saving else w.flows[r.flow]?.any Flow.saving := by
  have hi : i<w.flows.length := (List.getElem?_eq_some_iff.mp hf).1
  rw [World.unanswered,advance_writes]
  apply List.filter_congr
  intro r _
  exact saving_set w.flows i r.flow next.1 hi

theorem any_saving (w : World) (i : Nat) (f : Flow) (hf : w.flows[i]?=some f) (r : Record)
    (hr : r.flow=i) : w.flows[r.flow]?.any Flow.saving=f.saving := by
  rw [hr,hf]
  rfl

/-- With nothing sent and nothing answered the unanswered records stay. -/
theorem unanswered_not (w : World) (i : Nat) (f : Flow) (next : Flow × Services)
    (hf : w.flows[i]?=some f) (hold : f.saving=false) (hnew : next.1.saving=false)
    (hs : next.2.writes=[]) : (w.advance i next).unanswered=w.unanswered := by
  rw [unanswered_advance w i f next hf,hs,List.append_nil]
  apply List.filter_congr
  intro r _
  by_cases hr : r.flow=i
  · rw [if_pos hr,hnew,any_saving w i f hf r hr,hold]
  · rw [if_neg hr]

theorem unanswered_sends (w : World) (i : Nat) (f : Flow) (next : Flow × Services) (r : Record)
    (hf : w.flows[i]?=some f) (hnew : next.1.saving=true) (hs : next.2.writes=[r]) (hr : r.flow=i)
    (hown : (w.services.of i).writes=[]) : (w.advance i next).unanswered=w.unanswered++[r] := by
  rw [unanswered_advance w i f next hf,hs,List.filter_append]
  have hlast : ([r].filter fun r =>
      if r.flow=i then next.1.saving else w.flows[r.flow]?.any Flow.saving)=[r] := by
    simp [hr,hnew]
  rw [hlast]
  congr 1
  apply List.filter_congr
  intro x hx
  have hne : x.flow≠i := by
    intro hxi
    have hmem : x∈(w.services.of i).writes := (mem_own ..).mpr ⟨hx,hxi⟩
    rw [hown] at hmem
    contradiction
  rw [if_neg hne]

/-- The answer to the oldest unanswered record leaves the others. -/
theorem unanswered_answered (w : World) (i : Nat) (f : Flow) (next : Flow × Services)
    (hf : w.flows[i]?=some f) (hnew : next.1.saving=false) (hs : next.2.writes=[])
    (hone : (w.services.of i).writes.length≤1) (r : Record) (rest : List Record)
    (hhead : w.unanswered=r::rest) (hr : r.flow=i) : (w.advance i next).unanswered=rest := by
  have hothers : (w.advance i next).unanswered=w.unanswered.filter fun x => x.flow != i := by
    rw [unanswered_advance w i f next hf,hs,List.append_nil,World.unanswered,List.filter_filter]
    apply List.filter_congr
    intro x _
    by_cases hx : x.flow=i
    · simp [hx,hnew]
    · simp [hx]
  have hsub : (r::rest).Sublist w.services.writes := hhead ▸ List.filter_sublist
  have hrest : ∀x∈rest,x.flow≠i := by
    intro x hx hxi
    have hpair : (own Record.flow i (r::rest)).Sublist (w.services.of i).writes :=
      hsub.filter _
    have hlong : 2≤(own Record.flow i (r::rest)).length := by
      have hown : own Record.flow i (r::rest)=r::own Record.flow i rest := by
        simp [own,hr]
      have hpos : 0<(own Record.flow i rest).length :=
        List.length_pos_of_mem ((mem_own ..).mpr ⟨hx,hxi⟩)
      rw [hown,List.length_cons]
      omega
    have hlength := hpair.length_le
    omega
  rw [hothers,hhead,List.filter_cons]
  simp only [hr,bne_self_eq_false,Bool.false_eq_true,if_false]
  apply List.filter_eq_self.mpr
  intro x hx
  simpa using hrest x hx

/-- What an event does to the records and to the client's copy of them. -/
inductive Syncs (w v : World) : Event → Prop
  | quiet (e : Event) (hchange : w.change e=none) (hwrites : v.services.writes=w.services.writes)
      (hunanswered : v.unanswered=w.unanswered) : Syncs w v e
  | sends (e : Event) (r : Record) (hchange : w.change e=some (.submit r.write))
      (hwrites : v.services.writes=w.services.writes++[r])
      (hunanswered : v.unanswered=w.unanswered++[r]) : Syncs w v e
  | answered (i : Nat) (f : Flow) (outcome : Outcome) (c : Replica.Change String AnyObject)
      (hf : w.flows[i]?=some f) (hsaving : f.saving=true)
      (hchange : w.change (.answer i outcome)=some c)
      (hc : c=.accept ∨ c=.reject ∧ ∃error,outcome=.failure error)
      (hwrites : v.services.writes=w.services.writes)
      (hunanswered : ∀r rest,w.unanswered=r::rest → r.flow=i → v.unanswered=rest) :
      Syncs w v (.answer i outcome)

/-- A new sign-up has no record yet. -/
theorem Coherent.unanswered_concat {lossy : Bool} {w v : World} (hw : Coherent lossy w)
    (hs : v.services=w.services) (f : Flow) (hflows : v.flows=w.flows++[f]) :
    v.unanswered=w.unanswered := by
  unfold World.unanswered
  rw [hs,hflows]
  apply List.filter_congr
  intro r hr
  obtain ⟨g,hg⟩ := hw.started r.flow (w.services.of_ne_empty_of_writes r hr)
  rw [List.getElem?_append_left (List.getElem?_eq_some_iff.mp hg).1]

theorem step_syncs (lossy : Bool) (p : Platform) (w v : World) (e : Event)
    (hw : Coherent lossy w) (hsettled : w.unsettled e=false) (h : w.step p e=some v) :
    Syncs w v e := by
  rcases step_acts p w v e h with ⟨hnone,hs,hflows⟩ | ⟨j,f,x,next,hf,hx,rfl,he⟩
  · have hwrites : v.services.writes=w.services.writes := by rw [hs]
    rcases hflows with hsame | ⟨_,c,hmore⟩
    · refine .quiet e (change_eq_none w e hnone) hwrites ?_
      rw [World.unanswered,World.unanswered,hwrites,hsame]
    · exact .quiet e (change_eq_none w e hnone) hwrites (hw.unanswered_concat hs _ hmore)
  · have hevent : e=x.event j := event_of_onFlow e j x (by rw [he,if_pos rfl])
    subst hevent
    have hone : (w.services.of j).writes.length≤1 := (hw.reached j f hf).lengths.2.2.1
    have hsaves := act_saves lossy w.services (w.services.of j) j f x next (hw.reached j f hf) hx
    cases hsaves with
    | not x next hold hnew hs =>
      refine .quiet _ ?_ ?_ (unanswered_not w j f next hf hold hnew hs)
      · cases x with
        | answer outcome => simp [Act.event,World.change,hf,hold]
        | complete =>
          have hnext : f.complete j=some next := hx
          simp [Act.event,World.change,hf,hnext,hs]
      · rw [advance_writes,hs,List.append_nil]
    | sends next r hold hnew hs hr hown =>
      have hnext : f.complete j=some next := hx
      refine .sends _ r ?_ ?_ (unanswered_sends w j f next r hf hnew hs hr hown)
      · simp [Act.event,World.change,hf,hnext,hs]
      · rw [advance_writes,hs]
    | answered outcome next ho hold hnew hs =>
      have hwrites : (w.advance j next).services.writes=w.services.writes := by
        rw [advance_writes,hs,List.append_nil]
      have hrest := unanswered_answered w j f next hf hnew hs hone
      cases outcome with
      | success assigned =>
        exact .answered j f _ .accept hf hold (by simp [World.change,hf,hold]) (.inl rfl) hwrites
          hrest
      | failure error =>
        exact .answered j f _ .reject hf hold (by simp [World.change,hf,hold])
          (.inr ⟨rfl,error,rfl⟩) hwrites hrest
      | nilURL => contradiction
      | lost assigned error =>
        -- the database's answers are not lost
        simp [World.unsettled,Act.event,hf,hold] at hsettled

/-- The database has refused the record. -/
def Flow.refused (f : Flow) : Bool :=
  match f.stage with
  | .updateChildValues _ _ (some ⟨none,_⟩) => true
  | _ => false

/-- No record is in the database that was reported as refused. -/
def Settled (w : World) : Prop :=
  ∀i (f : Flow),w.flows[i]?=some f → f.refused=true → (w.services.of i).database=[]

/-- A record that waits for its answer is not in the database. -/
theorem Flow.Reached.database_of_saving {lossy : Bool} {i : Nat} {f : Flow} {own : Services}
    (hr : f.Reached lossy i own) (h : f.saving=true) : own.database=[] := by
  obtain ⟨c,stage,finished⟩ := f
  simp only [Flow.Reached] at hr
  cases hr with
  | saving => rfl
  | _ => contradiction

/-- Only an answer that is not lost has a record refused, and the answer comes once. -/
theorem act_settled (lossy : Bool) (s own : Services) (i : Nat) (f : Flow) (x : Act)
    (next : Flow × Services) (hr : f.Reached lossy i own) (h : f.act s i x=some next)
    (hlost : ∀outcome,x=.answer outcome → f.saving=true → outcome.isLost=false)
    (hf : f.refused=true → own.database=[]) (hnext : next.1.refused=true) :
    (own++next.2).database=[] := by
  have nothing (hown : own.database=[]) (hnone : next.2.database=[]) :
      (own++next.2).database=[] := by
    change own.database++next.2.database=[]
    rw [hown,hnone,List.append_nil]
  cases x with
  | answer outcome =>
    change f.answer s i outcome=some next at h
    unfold Flow.answer at h
    split at h
    case h_1 | h_10 =>
      split at h
      · contradiction
      · cases h
        contradiction
    case h_5 =>
      obtain ⟨o,_,hnext⟩ := Option.map_eq_some_iff.mp h
      subst hnext
      contradiction
    case h_9 hstage =>
      cases h
      exact nothing (hr.database_of_saving (by simp [Flow.saving,hstage])) rfl
    case h_12 hstage =>
      have hsettled := hlost _ rfl (by simp [Flow.saving,hstage])
      contradiction
    case h_13 => contradiction
    all_goals
      cases h
      contradiction
  | complete =>
    change f.complete i=some next at h
    unfold Flow.complete at h
    split at h
    · contradiction
    · split at h
      case h_4 =>
        cases h
        exact nothing (hf hnext) rfl
      case h_5 => contradiction
      all_goals
        rename_i hstage
        split at h <;> cases h <;> simp [Flow.refused,hstage] at hnext

theorem step_settled (p : Platform) (w v : World) (e : Event) (hw : Coherent true w)
    (hs : Settled w) (he : w.unsettled e=false) (h : w.step p e=some v) : Settled v := by
  intro i g hg hrefused
  rcases step_acts p w v e h with ⟨_,hservices,hflows⟩ | ⟨j,f,x,next,hf,hx,rfl,hacts⟩
  · rw [hservices]
    rcases hflows with hsame | ⟨_,c,hmore⟩
    · exact hs i g (hsame ▸ hg) hrefused
    · rw [hmore,List.getElem?_append] at hg
      split at hg
      · exact hs i g hg hrefused
      · -- a sign-up that starts has no answer
        have hnew : g={captured := c} := by
          simpa using List.mem_of_getElem? hg
        rw [hnew] at hrefused
        contradiction
  · change (w.flows.set j next.1)[i]?=some g at hg
    rw [advance_of w j i next (hw.act_advances j f hf x next hx).owned]
    by_cases hji : j=i
    · subst hji
      have hlt : j<w.flows.length := (List.getElem?_eq_some_iff.mp hf).1
      have hnext : next.1=g := by simpa [hlt] using hg
      rw [if_pos rfl]
      refine act_settled true w.services _ j f x next (hw.reached j f hf) hx ?_ (hs j f hf)
        (hnext ▸ hrefused)
      rintro outcome rfl hsaving
      have hevent := event_of_onFlow e j (.answer outcome) (by rw [hacts,if_pos rfl])
      cases outcome with
      | lost assigned error => simp [hevent,Act.event,World.unsettled,hf,hsaving] at he
      | success | failure | nilURL => rfl
    · rw [List.getElem?_set_ne hji] at hg
      rw [if_neg hji]
      exact hs i g hg hrefused

end SignUps

namespace App

open Framework

/-- What the event is to the search screen's copy of `users` and its observer. -/
def World.searchEvents (w : World) : Event → List Search.Event
  | .signUp e => (w.signUps.change e).toList.map .change
  | .report x => [.change (.report x)]
  | .table (.search e) => [e]
  | .table _ => []

theorem step_components (p : Platform) (w v : World) (e : Event) (h : w.step p e=some v) :
    w.allowed p e=true ∧
    (SignUps.machine p).run w.signUps (w.signUpEvents e)=some v.signUps ∧
    (Table.machine p).run w.table (w.tableEvents e)=some v.table := by
  unfold World.step at h
  split at h
  · rename_i hallowed
    simp only [Option.bind_eq_bind,Option.bind_eq_some_iff] at h
    obtain ⟨signUps,hs,table,ht,hv⟩ := h
    cases hv
    exact ⟨hallowed,hs,ht⟩
  · contradiction

theorem table_search (p : Platform) (w v : Table.World) (e : Search.Event)
    (h : w.step p (.search e)=some v) : w.search.step e=some v.search := by
  unfold Table.World.step at h
  split at h
  · contradiction
  · obtain ⟨search,hsearch,rfl⟩ := Option.map_eq_some_iff.mp h
    exact hsearch

theorem table_search_other (p : Platform) (w v : Table.World) (e : Table.Event)
    (h : w.step p e=some v) (he : ∀x,e≠.search x) : v.search=w.search := by
  obtain ⟨_,ht⟩ := Table.step_transition p w v e h
  cases ht with
  | search x => exact absurd rfl (he x)
  | reload | cellForRow | endDisplaying | didSelectRow | images | trap => rfl

theorem step_search (p : Platform) (w v : World) (e : Event) (h : w.step p e=some v) :
    Search.machine.run w.table.search (w.searchEvents e)=some v.table.search := by
  obtain ⟨_,_,ht⟩ := step_components p w v e h
  have single (x : Search.Event)
      (hx : (Table.machine p).run w.table [.search x]=some v.table) :
      Search.machine.run w.table.search [x]=some v.table.search := by
    rw [Machine.run_singleton] at hx ⊢
    exact table_search p w.table v.table x hx
  cases e with
  | signUp e =>
    simp only [World.tableEvents,World.searchEvents] at ht ⊢
    cases hchange : w.signUps.change e with
    | none =>
      rw [hchange] at ht
      have hsame : w.table=v.table := Option.some.inj ht
      rw [←hsame]
      rfl
    | some c =>
      rw [hchange] at ht
      exact single (.change c) ht
  | report x => exact single _ ht
  | table e =>
    cases e with
    | search x => exact single x ht
    | _ =>
      simp only [World.tableEvents,Machine.run_singleton] at ht
      have hsame := table_search_other p w.table v.table _ ht (by simp)
      exact congrArg some hsame.symm

theorem step_signUps (p : Platform) (w v : World) (e : SignUps.Event)
    (h : w.step p (.signUp e)=some v) : w.signUps.step p e=some v.signUps := by
  obtain ⟨_,hs,_⟩ := step_components p w v _ h
  exact ((SignUps.machine p).run_singleton w.signUps e).symm.trans hs

def World.node (w : World) : Search.Users := w.table.search.node

/-- What one event does to the sign-ups and to the client's copy of `users`. -/
inductive NodeStep (p : Platform) (w v : World) : Event → Prop
  | signUp (e : SignUps.Event) (hs : w.signUps.step p e=some v.signUps)
      (hchange : w.signUps.change e=none) (hnode : v.node=w.node) : NodeStep p w v (.signUp e)
  | change (e : SignUps.Event) (c : Replica.Change String AnyObject)
      (hs : w.signUps.step p e=some v.signUps) (hchange : w.signUps.change e=some c)
      (hnode : w.node.change c=some v.node) : NodeStep p w v (.signUp e)
  | report (x : Write String AnyObject) (hs : v.signUps=w.signUps)
      (hnode : w.node.change (.report x)=some v.node) : NodeStep p w v (.report x)
  | table (e : Table.Event) (hs : v.signUps=w.signUps) (hnode : v.node=w.node) :
      NodeStep p w v (.table e)

theorem search_node (w v : Search.World) (e : Search.Event) (h : w.step e=some v) :
    (∃c,e=.change c ∧ w.node.change c=some v.node) ∨ (∀c,e≠.change c) ∧ v.node=w.node := by
  rcases Search.step_cases w v e h with ⟨rfl,_,rfl⟩ | ⟨c,node,rfl,hnode,rfl⟩ | ⟨_,_,rfl,_,rfl⟩
  · exact .inr ⟨by simp,rfl⟩
  · exact .inl ⟨c,rfl,hnode⟩
  · exact .inr ⟨by simp,rfl⟩

theorem run_search_single (w v : Search.World) (e : Search.Event)
    (h : Search.machine.run w [e]=some v) : w.step e=some v := by
  exact (Search.machine.run_singleton w e).symm.trans h

theorem run_search_change (w v : Search.World) (c : Replica.Change String AnyObject)
    (h : Search.machine.run w [.change c]=some v) : w.node.change c=some v.node := by
  rcases search_node w v _ (run_search_single w v _ h) with ⟨d,hd,hnode⟩ | ⟨hno,_⟩
  · cases hd
    exact hnode
  · exact absurd rfl (hno c)

theorem step_node (p : Platform) (w v : World) (e : Event) (h : w.step p e=some v) :
    NodeStep p w v e := by
  obtain ⟨hallowed,hs,_⟩ := step_components p w v e h
  have hsearch := step_search p w v e h
  cases e with
  | signUp e =>
    have hstep := step_signUps p w v e h
    simp only [World.searchEvents] at hsearch
    cases hchange : w.signUps.change e with
    | none =>
      rw [hchange] at hsearch
      have hsame : w.table.search=v.table.search := Option.some.inj hsearch
      exact .signUp e hstep hchange (congrArg Search.World.node hsame.symm)
    | some c =>
      rw [hchange] at hsearch
      exact .change e c hstep hchange (run_search_change _ _ c hsearch)
  | report x => exact .report x (Option.some.inj hs).symm (run_search_change _ _ _ hsearch)
  | table e =>
    refine .table e (Option.some.inj hs).symm ?_
    cases e with
    | search x =>
      rcases search_node _ _ x (run_search_single _ _ x hsearch) with ⟨c,rfl,_⟩ | ⟨_,hnode⟩
      · contradiction
      · exact hnode
    | _ => exact congrArg Search.World.node (Option.some.inj hsearch).symm

section Run

variable (p : Platform) (w v : World) (es : List Event) (h : (machine p).run w es=some v)
include h

theorem run_signUps :
    (SignUps.machine p).run w.signUps ((machine p).log World.signUpEvents w es)=some v.signUps :=
  (machine p).run_simulates (SignUps.machine p) World.signUps World.signUpEvents
    (fun w e v hstep => (step_components p w v e hstep).2.1) w v es h

theorem run_search : Search.machine.run w.table.search ((machine p).log World.searchEvents w es)=
    some v.table.search :=
  (machine p).run_simulates Search.machine (fun w => w.table.search) World.searchEvents
    (fun w e v hstep => step_search p w v e hstep) w v es h

end Run

/-- The client's unconfirmed writes are the unanswered records of the sign-ups. -/
def Linked (w : World) : Prop := w.node.pending=w.signUps.unanswered.map SignUps.Record.write

theorem answered_head (p : Platform) (w : World) (i : Nat) (f : SignUps.Flow)
    (outcome : SignUps.Outcome) (hf : w.signUps.flows[i]?=some f) (hsaving : f.saving=true)
    (h : w.allowed p (.signUp (.answer i outcome))=true) :
    ∃r rest,w.signUps.unanswered=r::rest ∧ r.flow=i := by
  have hhead : w.signUps.unanswered.head?.any (fun r => r.flow==i)=true := by
    unfold SignUps.Flow.saving at hsaving
    unfold World.allowed at h
    split at hsaving
    · rename_i heq
      cases outcome with
      | lost assigned error => simp [hf,heq] at h
      | success | failure | nilURL => simpa [hf,heq] using h
    · contradiction
  obtain ⟨r,hr,hflow⟩ := (Option.any_eq_true ..).mp hhead
  obtain ⟨rest,hrest⟩ := List.head?_eq_some_iff.mp hr
  exact ⟨r,rest,hrest,by simpa using hflow⟩

/-- No answer of the database is lost. -/
theorem unsettled_of_allowed (p : Platform) (w : World) (e : SignUps.Event)
    (h : w.allowed p (.signUp e)=true) : w.signUps.unsettled e=false := by
  cases e with
  | answer i outcome =>
    cases outcome with
    | lost assigned error =>
      rw [SignUps.World.unsettled,Option.any_eq_false]
      intro f hf
      unfold SignUps.Flow.saving
      split
      · rename_i heq
        simp [World.allowed,hf,heq] at h
      · rfl
    | success | failure | nilURL => rfl
  | _ => rfl

/-- What holds of the parts and between them in every reachable state. -/
structure Coherent (p : Platform) (w : World) : Prop where
  signUps : SignUps.Coherent true w.signUps
  settled : SignUps.Settled w.signUps
  table : Table.Coherent p w.table
  linked : Linked w

theorem pending_answered (n m : Search.Users) (c : Replica.Change String AnyObject)
    (x : Write String AnyObject) (xs : List (Write String AnyObject)) (h : n.change c=some m)
    (hc : c=.accept ∨ c=.reject) (hpending : n.pending=x::xs) : m.pending=xs := by
  obtain ⟨server,pending⟩ := n
  change pending=x::xs at hpending
  subst hpending
  rcases hc with rfl | rfl
  · cases h
    rfl
  · cases h
    rfl

theorem step_linked (p : Platform) (w v : World) (e : Event) (hw : Coherent p w)
    (h : w.step p e=some v) : Linked v := by
  have hlinked : w.node.pending=w.signUps.unanswered.map SignUps.Record.write := hw.linked
  cases step_node p w v e h with
  | table e hs hnode =>
    rw [Linked,hs,hnode]
    exact hlinked
  | report x hs hnode =>
    have hv := Option.some.inj hnode
    rw [Linked,hs,←hv]
    exact hlinked
  | signUp e hs hchange hnode =>
    have hsettled := unsettled_of_allowed p w e (step_components p w v _ h).1
    rw [Linked,hnode,hlinked]
    cases SignUps.step_syncs true p w.signUps v.signUps e hw.signUps hsettled hs with
    | quiet e _ _ hunanswered => rw [hunanswered]
    | sends e r hsend => rw [hchange] at hsend; contradiction
    | answered i f outcome c _ _ hanswer => rw [hchange] at hanswer; contradiction
  | change e c hs hchange hnode =>
    have hsettled := unsettled_of_allowed p w e (step_components p w v _ h).1
    cases SignUps.step_syncs true p w.signUps v.signUps e hw.signUps hsettled hs with
    | quiet e hquiet => rw [hchange] at hquiet; contradiction
    | sends e r hsend _ hunanswered =>
      have hc : c=.submit r.write := Option.some.inj (hchange.symm.trans hsend)
      subst hc
      have hv := Option.some.inj hnode
      rw [Linked,hunanswered,List.map_append,←hlinked,←hv]
      rfl
    | answered i f outcome d hf hsaving hanswer hd _ hunanswered =>
      have hcd : c=d := Option.some.inj (hchange.symm.trans hanswer)
      subst hcd
      obtain ⟨hallowed,_,_⟩ := step_components p w v _ h
      obtain ⟨r,rest,hhead,hr⟩ := answered_head p w i f outcome hf hsaving hallowed
      rw [hhead] at hlinked
      rw [Linked,hunanswered r rest hhead hr]
      exact pending_answered w.node v.node c r.write _ hnode
        (hd.elim .inl fun hreject => .inr hreject.1) hlinked

theorem step_coherent (p : Platform) (w : World) (e : Event) (v : World) (hw : Coherent p w)
    (h : w.step p e=some v) : Coherent p v := by
  obtain ⟨_,hs,ht⟩ := step_components p w v e h
  refine ⟨?_,?_,?_,step_linked p w v e hw h⟩
  · exact (SignUps.machine p).run_invariant (SignUps.Coherent true)
      (fun x y z hx hstep => SignUps.step_coherent true p x y z hx (fun _ => rfl) hstep) _ _ _
      hw.signUps hs
  · cases step_node p w v e h with
    | signUp e hsignUps | change e c hsignUps =>
      exact SignUps.step_settled p _ _ e hw.signUps hw.settled
        (unsettled_of_allowed p w e (step_components p w v _ h).1) hsignUps
    | report x hsame | table e hsame => exact hsame ▸ hw.settled
  · exact (Table.machine p).run_invariant (Table.Coherent p) (Table.step_coherent p) _ _ _
      hw.table ht

theorem launch_coherent (p : Platform) (children : AList fun _ : String => AnyObject) :
    Coherent p (World.launch p children) where
  signUps := SignUps.launch_coherent true p
  settled := by
    intro i f hf
    contradiction
  table := Table.launch_coherent p children
  linked := rfl

theorem run_coherent (p : Platform) (children : AList fun _ : String => AnyObject)
    (es : List Event) (w : World) (h : (machine p).run (World.launch p children) es=some w) :
    Coherent p w :=
  (machine p).run_invariant (Coherent p) (step_coherent p) _ w es (launch_coherent p children) h

end App

end ShareImage
