import VisualScript.Proofs.Graph.Consistency

/-!
# Operations and the counter

The counter for fresh ids is never wound back, so what is undone comes back with the counter raised.
`Method.Alike` leaves the counter out. Of the operations only `addNode` looks at the counter; every other one is
`Steady`: on methods that are alike it answers the same and leaves methods that are alike
(`Method.coupled_alike`).
-/

namespace VisualScript

open EditM

namespace GraphM

variable {α : Type}

/-- The operation does not look at `nextId`: methods that are `Alike` get the same answer and stay alike. -/
def Steady (x : GraphM α) : Prop := Couples Method.Alike (fun _ => True) x x

theorem Steady.exec_ok {x : GraphM α} (hx : Steady x) {a b a' : Method} {r : α} (h : a.Alike b)
    (he : x.exec a = (.ok r, a')) : ∃ b', x.exec b = (.ok r, b') ∧ a'.Alike b' := by
  obtain ⟨h1, h2, -⟩ := hx a b h
  rw [he] at h1 h2
  exact ⟨(x.exec b).2, Prod.ext h1.symm rfl, h2⟩

end GraphM

theorem Method.linkwise_alike : Linkwise Method.Alike where
  alike h := h
  change {_ _ F f} _ _ p := by
    rintro a _ ⟨k, rfl⟩
    have hp : ({ a with nextId := k } : Method).pin? F p = a.pin? F p := rfl
    cases h : a.pin? F p with
    | none =>
      rw [GraphM.exec_change_none h, GraphM.exec_change_none (hp.trans h)]
      exact ⟨rfl, ⟨k, rfl⟩, fun _ _ => trivial⟩
    | some pin =>
      rw [GraphM.exec_change_some h, GraphM.exec_change_some (hp.trans h)]
      exact ⟨rfl, ⟨k, rfl⟩, fun _ _ => trivial⟩

namespace GraphM

theorem steady_removeNode (id : NodeId) : Steady (removeNode id) := by
  unfold removeNode
  refine Method.linkwise_alike.get_bind (fun _ _ => rfl) fun m => ?_
  split_ifs
  · exact Couples.throw _
  · -- without its links the node is looked up again, by its id alone
    refine (couples_disconnectAll Method.linkwise_alike id).bind fun _ _ => ?_
    rintro a _ ⟨k, rfl⟩
    have hn : ({ a with nextId := k } : Method).node? id = a.node? id := rfl
    rw [exec_get_bind, exec_get_bind, hn]
    cases a.node? id with
    | none => exact ⟨rfl, ⟨k, rfl⟩, fun _ _ => trivial⟩
    | some n => exact ⟨rfl, ⟨k, rfl⟩, fun _ _ => trivial⟩

theorem steady_insertNode (n : Node) : Steady (insertNode n) := by
  rintro a _ ⟨k, rfl⟩
  have hid : ({ a with nextId := k } : Method).node? n.id = a.node? n.id := rfl
  cases hk : n.kind.isEntry with
  | true =>
    rw [exec_insertNode_entry hk, exec_insertNode_entry hk]
    exact ⟨rfl, ⟨k, rfl⟩, fun _ _ => trivial⟩
  | false =>
    cases hn : a.node? n.id with
    | some n' =>
      rw [exec_insertNode_inUse hk (by rw [hn]; rfl), exec_insertNode_inUse hk (by rw [hid, hn]; rfl)]
      exact ⟨rfl, ⟨k, rfl⟩, fun _ _ => trivial⟩
    | none =>
      -- both counters go past the id of the node, and may still differ
      rw [exec_insertNode hk hn, exec_insertNode hk (hid.trans hn)]
      exact ⟨rfl, ⟨max k (n.id + 1), rfl⟩, fun _ _ => trivial⟩

end GraphM

/-- All operations but `addNode` are `Steady`. -/
theorem Method.coupled_alike (c : TypeCatalog) : Coupled c Method.Alike fun _ => True where
  alike h := h
  insertNode _ := GraphM.steady_insertNode _
  removeNode := GraphM.steady_removeNode
  connect := GraphM.couples_connect linkwise_alike c
  unlink := GraphM.couples_unlink linkwise_alike
  disconnect := GraphM.couples_disconnect linkwise_alike

end VisualScript
