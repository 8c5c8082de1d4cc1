import ShareImage.Session.Transition
import ShareImage.Controller.SearchTableViewController
import Mathlib.Data.List.Nodup

namespace ShareImage.Session

open Framework

/-- The event rebuilds the tab controllers. -/
def World.rebuilds (w : World) : Event → Bool
  | .runCallback k => w.callbacks[k]?.any Callback.rebuilds
  | _ => false

/-- The generations whose search screen loads with the event. -/
def World.loads (w : World) : Event → List Nat
  | .loadSearch => [w.generation]
  | _ => []

/-- What an event does to the observers: a search screen that loads gets one, and nothing else
changes them; a successful sign-in replaces the controllers. -/
structure Registers (w : World) (e : Event) (v : World) : Prop where
  observers : v.observers=w.observers++w.loads e
  generation : v.generation=w.generation+(w.rebuilds e).toNat
  fresh : ∀g∈w.loads e,g=w.generation ∧ g∉w.observers ∧ w.rebuilds e=false

theorem Registers.same {w v : World} {e : Event} (hloads : w.loads e=[])
    (hrebuilds : w.rebuilds e=false) (hobservers : v.observers=w.observers)
    (hgeneration : v.generation=w.generation) : Registers w e v where
  observers := by rw [hloads,List.append_nil,hobservers]
  generation := by rw [hrebuilds,hgeneration]; rfl
  fresh := by simp [hloads]

theorem step_registers (detached : Bool) (w v : World) (e : Event)
    (h : w.step detached e=some v) : Registers w e v := by
  obtain ⟨_,ht⟩ := step_transition detached w v e h
  cases ht with
  | touch e selected presented requests he _ _ =>
    have hloads : w.loads e=[] := by cases e <;> first | rfl | contradiction
    have hrebuilds : w.rebuilds e=false := by cases e <;> first | rfl | contradiction
    exact .same hloads hrebuilds rfl rfl
  | logout feed _ => exact .same rfl rfl rfl rfl
  | launched _ => exact .same rfl rfl rfl rfl
  | succeed k request uid _ => exact .same rfl rfl rfl rfl
  | fail k request error _ => exact .same rfl rfl rfl rfl
  | idle k c hc hidle =>
    have hrebuilds : w.rebuilds (.runCallback k)=false := by
      simp [World.rebuilds,hc,hidle]
    exact .same rfl hrebuilds rfl rfl
  | signedIn k login hk =>
    have hrebuilds : w.rebuilds (.runCallback k)=true := by
      simp [World.rebuilds,hk,Callback.rebuilds]
    rw [World.signedIn_eq]
    refine ⟨?_,?_,?_⟩
    · exact (List.append_nil _).symm
    · rw [hrebuilds]
      rfl
    · intro g hg
      contradiction
  | header uid _ _ _ => exact .same rfl rfl rfl rfl
  | trap _ _ _ => exact .same rfl rfl rfl rfl
  | fetch k f value _ => exact .same rfl rfl rfl rfl
  | load _ _ hnew =>
    refine ⟨rfl,rfl,?_⟩
    intro g hg
    have hpresent : g=w.generation := List.mem_singleton.mp hg
    subst hpresent
    exact ⟨rfl,hnew,rfl⟩
  | forcedSignOut => exact .same rfl rfl rfl rfl

/-- The observers belong to controllers of different generations, none later than the present. -/
structure Distinct (w : World) : Prop where
  nodup : w.observers.Nodup
  le : ∀g∈w.observers,g≤w.generation

theorem Distinct.registers {w v : World} {e : Event} (hw : Distinct w) (h : Registers w e v) :
    Distinct v where
  nodup := by
    rw [h.observers,List.nodup_append]
    refine ⟨hw.nodup,?_,?_⟩
    · cases e <;> simp [World.loads]
    · intro a ha b hb hab
      have hnew := (h.fresh b hb).2.1
      rw [←hab] at hnew
      contradiction
  le := by
    intro g hg
    rw [h.observers] at hg
    have hgen := h.generation
    rcases List.mem_append.mp hg with hg | hg
    · have hle := hw.le g hg
      omega
    · have hpresent := (h.fresh g hg).1
      omega

/-- Every observer belongs to the search controller that is in the tab bar. -/
def OnlyLive (w : World) : Prop := ∀g∈w.observers,g=w.generation

theorem OnlyLive.length {w : World} (hw : Distinct w) (h : OnlyLive w) : w.observers.length≤1 := by
  have hcount : w.observers.count w.generation=w.observers.length :=
    List.count_eq_length.mpr fun g hg => (h g hg).symm
  have hone : w.observers.count w.generation≤1 := List.nodup_iff_count_le_one.mp hw.nodup _
  omega

/-- A rebuild leaves behind the observers that there are. -/
theorem onlyLive_iff {w v : World} {e : Event} (hw : Distinct w) (hlive : OnlyLive w)
    (h : Registers w e v) : OnlyLive v ↔ (w.rebuilds e=true → w.observers=[]) := by
  have hgen := h.generation
  cases hr : w.rebuilds e with
  | false =>
    rw [hr] at hgen
    have hlive' : OnlyLive v := by
      intro g hg
      rw [h.observers] at hg
      rcases List.mem_append.mp hg with hg | hg
      · have hold := hlive g hg
        simpa [hgen] using hold
      · have hnew := (h.fresh g hg).1
        simpa [hgen] using hnew
    simp [hlive']
  | true =>
    rw [hr] at hgen
    have hloads : w.loads e=[] := by
      apply List.eq_nil_iff_forall_not_mem.mpr
      intro g hg
      have hfalse := (h.fresh g hg).2.2
      rw [hr] at hfalse
      contradiction
    have hobs : v.observers=w.observers := by rw [h.observers,hloads,List.append_nil]
    constructor
    · intro hv _
      apply List.eq_nil_iff_forall_not_mem.mpr
      intro g hg
      have hle := hw.le g hg
      have hpresent := hv g (hobs ▸ hg)
      simp only [Bool.toNat_true] at hgen
      omega
    · intro hnone g hg
      rw [hobs,hnone rfl] at hg
      contradiction

/-- The session with the search controller of each generation. -/
structure Observed where
  session : World
  search : Nat → SearchTableViewController := fun _ => {}

namespace Observed

/-- The database runs the block of an observer for each child that is there when it registers
(`existing`), and later the blocks of all observers for each new child. -/
inductive Event where
  | session (e : Session.Event)
  | existing (observer : Nat) (snapshot : DataSnapshot)
  | childAdded (snapshot : DataSnapshot)

/-- One observer's block runs. -/
def append (snapshot : DataSnapshot) (search : Nat → SearchTableViewController) (observer : Nat) :
    Nat → SearchTableViewController :=
  Function.update search observer ((search observer).fetchUsers snapshot)

def childAdded (f : Observed) (snapshot : DataSnapshot) : Observed :=
  {f with search := f.session.observers.foldl (append snapshot) f.search}

def step (detached : Bool) (f : Observed) : Event → Option Observed
  | .session e => (f.session.step detached e).map fun session => {f with session := session}
  | .existing observer snapshot =>
    if observer∈f.session.observers then
      some {f with search := append snapshot f.search observer}
    else none
  | .childAdded snapshot => some (f.childAdded snapshot)

def launch (currentUser : Option String) : Observed where
  session := World.launch currentUser

def machine (detached : Bool) : Machine Observed Event := ⟨step detached⟩

/-- The generations whose search screen loads with the event. -/
def loads (f : Observed) : Event → List Nat
  | .session e => f.session.loads e
  | _ => []

def rebuilds (f : Observed) : Event → Bool
  | .session e => f.session.rebuilds e
  | _ => false

/-- What an event of the database leaves alone, and what one of the app does. -/
theorem step_cases (detached : Bool) (f g : Observed) (e : Event) (h : f.step detached e=some g) :
    (∃a,e=.session a ∧ Registers f.session a g.session) ∨
    (g.session=f.session ∧ f.loads e=[] ∧ f.rebuilds e=false) := by
  cases e with
  | session a =>
    obtain ⟨w,hw,rfl⟩ := Option.map_eq_some_iff.mp h
    exact .inl ⟨a,rfl,step_registers detached _ _ a hw⟩
  | existing observer snapshot =>
    simp only [step] at h
    split at h
    · cases h
      exact .inr ⟨rfl,rfl,rfl⟩
    · contradiction
  | childAdded snapshot =>
    cases h
    exact .inr ⟨rfl,rfl,rfl⟩

theorem step_distinct (detached : Bool) (f : Observed) (e : Event) (g : Observed)
    (hf : Distinct f.session) (h : f.step detached e=some g) : Distinct g.session := by
  rcases step_cases detached f g e h with ⟨a,_,hregisters⟩ | ⟨hsame,_,_⟩
  · exact hf.registers hregisters
  · rw [hsame]
    exact hf

theorem launch_distinct (currentUser : Option String) : Distinct (launch currentUser).session where
  nodup := List.nodup_nil
  le := by
    intro g hg
    contradiction

/-- No observer goes away: they are those of all search screens that have loaded. -/
theorem run_observers (detached : Bool) (currentUser : Option String) (es : List Event) (f : Observed)
    (h : (machine detached).run (launch currentUser) es=some f) :
    f.session.observers=(machine detached).log loads (launch currentUser) es := by
  refine (machine detached).run_history
    (fun es f => f.session.observers=(machine detached).log loads (launch currentUser) es)
    (launch currentUser) rfl ?_ es f h
  intro es f e g hrun hf hstep
  rw [Machine.log_concat _ _ _ f es e hrun,←hf]
  rcases step_cases detached f g e hstep with ⟨a,rfl,hregisters⟩ | ⟨hsame,hloads,_⟩
  · exact hregisters.observers
  · rw [hsame,hloads,List.append_nil]

/-- The blocks of different observers append the user to the array of each, once. -/
theorem foldl_append_users (snapshot : DataSnapshot) (observers : List Nat)
    (search : Nat → SearchTableViewController) (hnodup : observers.Nodup) (g : Nat) :
    (observers.foldl (append snapshot) search g).users=
      (search g).users++if g∈observers then snapshot.user.toList else [] := by
  induction observers generalizing search with
  | nil => simp
  | cons a observers ih =>
    obtain ⟨hnew,hrest⟩ := List.nodup_cons.mp hnodup
    rw [List.foldl_cons,ih (append snapshot search a) hrest]
    by_cases hga : g=a
    · subst hga
      have happend : append snapshot search g g=(search g).fetchUsers snapshot := by
        simp [append]
      rw [happend,SearchTableViewController.fetchUsers_users]
      simp [hnew]
    · have happend : append snapshot search a g=search g := Function.update_of_ne hga ..
      rw [happend]
      simp [hga]

/-- Each search screen that has loaded has one observer, whether or not it is still in the tab bar,
and every new child is appended once to the array of each of them. All observers belong to the
present screen throughout a run exactly when no sign-in rebuilds the tabs after a search screen has
loaded. -/
theorem observers_of_loaded (detached : Bool) (currentUser : Option String) (es : List Event)
    (f : Observed) (h : (machine detached).run (launch currentUser) es=some f) :
    f.session.observers=(machine detached).log loads (launch currentUser) es ∧
    f.session.observers.Nodup ∧ f.session.observers.count f.session.generation≤1 ∧
    (∀snapshot g,((f.childAdded snapshot).search g).users=
      (f.search g).users++if g∈f.session.observers then snapshot.user.toList else []) ∧
    ((∀pre post g,es=pre++post → (machine detached).run (launch currentUser) pre=some g →
        OnlyLive g.session ∧ g.session.observers.length≤1) ↔
      (machine detached).Meets (fun g e => g.rebuilds e=true → g.session.observers=[])
        (launch currentUser) es) := by
  have hdistinct : ∀es g,(machine detached).run (launch currentUser) es=some g →
      Distinct g.session := fun es g =>
    (machine detached).run_invariant (fun f => Distinct f.session) (step_distinct detached)
      (launch currentUser) g es (launch_distinct currentUser)
  have hf : Distinct f.session := hdistinct es f h
  refine ⟨run_observers detached currentUser es f h,hf.nodup,?_,?_,?_⟩
  · exact List.nodup_iff_count_le_one.mp hf.nodup _
  · intro snapshot g
    exact foldl_append_users snapshot f.session.observers f.search hf.nodup g
  · have hlive := (machine detached).meets_iff_throughout
      (fun g e => g.rebuilds e=true → g.session.observers=[]) (fun g => Distinct g.session)
      (fun g => OnlyLive g.session) (step_distinct detached) ?_ (launch currentUser) f es
      (launch_distinct currentUser) (by intro g hg; contradiction) h
    · rw [←hlive]
      constructor
      · intro hall pre post g hes hg
        exact (hall pre post g hes hg).1
      · intro hall pre post g hes hg
        have hg' : OnlyLive g.session := hall pre post g hes hg
        exact ⟨hg',hg'.length (hdistinct pre g hg)⟩
    · intro g e v hg hlive hstep
      rcases step_cases detached g v e hstep with ⟨a,rfl,hregisters⟩ | ⟨hsame,_,hrebuilds⟩
      · exact onlyLive_iff hg hlive hregisters
      · rw [hsame,hrebuilds]
        simp [hlive]

/-- Somebody signs in and visits the search tab. -/
def visit : List Session.Event :=
  [.tapSignIn,.answer 0 (.ok "ann"),.runCallback 0,.select .search,.loadSearch]

def logout : List Session.Event := [.select .feed,.tapLogout,.confirmLogout none]

def visitedTwice : List Event := (.launched::(visit++logout++visit)).map .session

theorem observers_of_loaded_visitedTwice :
    ∃f,(machine false).run (launch none) visitedTwice=some f ∧ f.session.observers=[1,2] ∧
      f.session.generation=2 ∧ ∀snapshot,((f.childAdded snapshot).search 1).users=
        (f.search 1).users++snapshot.user.toList := by
  refine ⟨_,rfl,rfl,rfl,?_⟩
  intro snapshot
  exact (observers_of_loaded false none visitedTwice _ rfl).2.2.2.1 snapshot 1

/-- After the second visit a new child is appended to two arrays, and the first belongs to a screen
that has left the tab bar. -/
theorem not_onlyLive : ¬∀(detached : Bool) (currentUser : Option String) (es : List Event)
    (f : Observed),(machine detached).run (launch currentUser) es=some f →
      OnlyLive f.session ∧ f.session.observers.length≤1 := by
  intro h
  have hlive := h false none visitedTwice _ rfl
  exact absurd hlive.2 (by decide)

end Observed

end ShareImage.Session
