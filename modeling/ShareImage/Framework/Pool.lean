import ShareImage.Framework.Log
import Mathlib.Data.List.Range

namespace Framework

/-- Numbered items that are made on demand and kept. Each is in use by one key or free to be used
again, and no key uses two. -/
structure Pool (Key : Type*) where
  used : List (Key × Nat)
  free : List Nat
  size : Nat
  keys : (used.map Prod.fst).Nodup
  items : (used.map Prod.snd++free).Perm (List.range size)

namespace Pool

variable {Key : Type*}

def empty : Pool Key := ⟨[],[],0,List.nodup_nil,List.Perm.nil⟩

/-- The key gets the free item at the position, or a new one where there is none. A key that uses
an item gets no other. -/
def acquire [DecidableEq Key] (P : Pool Key) (key : Key) (position : Nat) :
    Option (Pool Key × Nat) :=
  if hkey : key∈P.used.map Prod.fst then none
  else
    match hfree : P.free[position]? with
    | some item => some ({
        used := (key,item)::P.used
        free := P.free.eraseIdx position
        size := P.size
        keys := List.nodup_cons.mpr ⟨hkey,P.keys⟩
        items := by
          have hperm := cons_eraseIdx_perm P.free position item hfree
          exact List.perm_middle.symm.trans ((hperm.append_left _).trans P.items)},item)
    | none => some ({
        used := (key,P.size)::P.used
        free := P.free
        size := P.size+1
        keys := List.nodup_cons.mpr ⟨hkey,P.keys⟩
        items := by
          rw [List.range_succ]
          exact (P.items.cons P.size).trans (List.perm_append_singleton ..).symm},P.size)

/-- The keys that leave give their items back. -/
def release (P : Pool Key) (leaves : Key → Bool) : Pool Key where
  used := P.used.filter fun u => !leaves u.1
  free := (P.used.filter fun u => leaves u.1).map Prod.snd++P.free
  size := P.size
  keys := P.keys.sublist (List.filter_sublist.map Prod.fst)
  items := by
    have hsplit : ((P.used.filter fun u => !leaves u.1).map Prod.snd++
        (P.used.filter fun u => leaves u.1).map Prod.snd).Perm (P.used.map Prod.snd) := by
      rw [←List.map_append]
      apply List.Perm.map
      exact List.perm_append_comm.trans (List.filter_append_perm (fun u => leaves u.1) P.used)
    rw [←List.append_assoc]
    exact (hsplit.append_right P.free).trans P.items

theorem items_nodup (P : Pool Key) : (P.used.map Prod.snd++P.free).Nodup :=
  P.items.nodup_iff.mpr List.nodup_range

theorem not_free (P : Pool Key) (key : Key) (item : Nat) (h : (key,item)∈P.used) :
    item∉P.free := by
  intro hfree
  have hmem : item∈P.used.map Prod.snd := List.mem_map_of_mem h
  exact (List.nodup_append.mp P.items_nodup).2.2 item hmem item hfree rfl

/-- No two keys use one item. -/
theorem key_unique (P : Pool Key) (j k : Key) (item : Nat) (hj : (j,item)∈P.used)
    (hk : (k,item)∈P.used) : j=k := by
  have hsnd : (P.used.map Prod.snd).Nodup := (List.nodup_append.mp P.items_nodup).1
  exact congrArg Prod.fst (List.inj_on_of_nodup_map hsnd hj hk rfl)

/-- The item that a key gets is used by no other key. -/
theorem acquire_spec [DecidableEq Key] (P Q : Pool Key) (key : Key) (position item : Nat)
    (h : P.acquire key position=some (Q,item)) :
    Q.used=(key,item)::P.used ∧ (∀j,(j,item)∉P.used) := by
  have hused : Q.used=(key,item)::P.used := by
    unfold acquire at h
    split at h
    · contradiction
    · split at h <;> cases h <;> rfl
  refine ⟨hused,?_⟩
  intro j hj
  have hnodup := (List.nodup_append.mp Q.items_nodup).1
  rw [hused,List.map_cons,List.nodup_cons] at hnodup
  have hmem : item∈P.used.map Prod.snd := List.mem_map.mpr ⟨(j,item),hj,rfl⟩
  exact hnodup.1 hmem

theorem mem_release (P : Pool Key) (leaves : Key → Bool) (u : Key × Nat) :
    u∈(P.release leaves).used ↔ u∈P.used ∧ leaves u.1=false := by
  simp [release]

end Pool

end Framework
