import VisualScript.Proofs.Source.Failure

/-!
# Errors are true of the graph

What an error says of a graph holds of it, whatever its references are: a pin that is said to have no link has
none, types that are said not to fit do not, and nodes that are said to lie on a cycle do. Only what control can
get to, or what feeds it, is ever complained about.

The cycles are those of the lists that writing keeps. The nodes on a path lead on to each other along exec links
(`Arrives.exists_way`), and those that wait are fed by the one whose inputs are looked for
(`Begins.exists_of_mem`).
-/

namespace VisualScript

open Relation

variable {job : Job} {id : NodeId} {label name : String}

theorem Fails.missingConnection (h : Fails job (.missingConnection id label name)) :
    ∃ n, job.method.node? id = some n ∧ job.method.Live n ∧
      ∃ pin ∈ n.dataIns, pin.name = name ∧ pin.incoming = none := by
  cases h with
  | astray _ hx => cases hx
  | @refused pending node d d' texts _ h _ _ hx =>
    cases hx with
    | unsupplied hu =>
      cases hu with
      | @unlinked pin hpin hnone =>
        exact ⟨node, h.live.node?, h.live, pin, List.mem_of_getElem? hpin, rfl, hnone⟩

theorem Fails.typeMismatch {expected found : TypeSpec} (h : Fails job (.typeMismatch id name expected found)) :
    ∃ n, job.method.node? id = some n ∧ job.method.Live n ∧
      ∃ pin ∈ n.dataIns, pin.name = name ∧ pin.type = expected ∧ ∃ source produced, pin.incoming = some source ∧
        job.method.pin? dataOuts (.dataOut source.node source.slot) = some produced ∧ produced.type = found ∧
          job.catalog.checkAssignable found expected ≠ .ok true := by
  cases h with
  | astray _ hx => cases hx
  | @refused pending node d d' texts _ h _ _ hx =>
    cases hx with
    | unsupplied hu =>
      cases hu with
      | @misfit pin source producer produced hpin hsource hproducer hproduced hfits =>
        refine ⟨node, h.live.node?, h.live, pin, List.mem_of_getElem? hpin, rfl, rfl, source, produced, hsource,
          Method.pin?_eq_some_iff.2 ⟨rfl, producer, hproducer, hproduced⟩, rfl, fun hok => ?_⟩
        rw [TypeCatalog.isAssignable_iff.2 hok] at hfits
        cases hfits

/-- The node that is asked for again `Feeds` itself by way of those that wait for it. -/
theorem Fails.dataCycle (h : Fails job (.dataCycle id label)) :
    ∃ n, job.method.node? id = some n ∧ n.kind.isStatement = true ∧ TransGen job.method.Feeds n n := by
  cases h with
  | astray _ hx => cases hx
  | @refused pending node d d' texts _ h _ _ hx =>
    cases hx with
    | unsupplied hu => cases hu
    | @cyclic s hs hk hp =>
      have hn := Method.node?_id (Job.supply_eq_ok hs).1
      -- it waits already, and all that wait are fed by the node whose input is looked for
      obtain ⟨n, hn', hfeeds⟩ := h.exists_of_mem hp
      rw [hn] at hn'
      cases hn'
      exact ⟨s.producer, hn, hk, TransGen.head' (Job.feeds_of_supply hs) hfeeds⟩

/-- The node that is entered again stands on the `Way` to the link that leads back to it. -/
theorem Fails.execCycle (h : Fails job (.execCycle id label)) :
    ∃ n, job.method.node? id = some n ∧ job.method.Reached n ∧ TransGen job.method.Next n n := by
  cases h with
  | astray _ hx => cases hx
  | @reenters path loops pin scope node h hf hp =>
    have hn := Job.node?_of_follow hf
    obtain ⟨pins, k, slot, hway, rfl, rfl⟩ := h.exists_way
    have hlast : job.method.Next k node := ⟨slot, Job.next?_of_follow hf⟩
    exact ⟨node, hn, h.reached hf, TransGen.tail' (hway.reflTransGen_of_mem_trail hn hp) hlast⟩
  | @refused pending node d d' texts _ h _ _ hx =>
    cases hx with
    | unsupplied hu => cases hu

/-- An error of `Job.source` that names a fault of the graph is right, also where references are arbitrary. -/
theorem Job.source_error_true {job : Job} {e : SourceError} (h : job.source = .error e) :
    (∀ id label name, e = .missingConnection id label name →
        ∃ n, job.method.node? id = some n ∧ job.method.Live n ∧
          ∃ pin ∈ n.dataIns, pin.name = name ∧ pin.incoming = none) ∧
      (∀ id name expected found, e = .typeMismatch id name expected found →
        ∃ n, job.method.node? id = some n ∧ job.method.Live n ∧
          ∃ pin ∈ n.dataIns, pin.name = name ∧ pin.type = expected ∧
            ∃ source produced, pin.incoming = some source ∧
              job.method.pin? dataOuts (.dataOut source.node source.slot) = some produced ∧
              produced.type = found ∧ job.catalog.checkAssignable found expected ≠ .ok true) ∧
      (∀ id label, e = .dataCycle id label →
        ∃ n, job.method.node? id = some n ∧ n.kind.isStatement = true ∧ TransGen job.method.Feeds n n) ∧
      ∀ id label, e = .execCycle id label →
        ∃ n, job.method.node? id = some n ∧ job.method.Reached n ∧ TransGen job.method.Next n n := by
  have hfails := Job.fails_of_source h
  refine ⟨?_, ?_, ?_, ?_⟩
  · rintro id label name rfl
    exact hfails.missingConnection
  · rintro id name expected found rfl
    exact hfails.typeMismatch
  · rintro id label rfl
    exact hfails.dataCycle
  · rintro id label rfl
    exact hfails.execCycle

/-- Two calls that take each other's results, one of which is assigned to `x`. -/
def entangled : Job where
  method := (Method.make "main" [] []).run (.ofPairs [])
    [.addNode (.callStatic (.named "T") "f" [.int] [.int]) {},
      .addNode (.callStatic (.named "T") "g" [.int] [.int]) {}, .addNode (.setter ⟨"x", .int⟩) {},
      .connect (.execOut 0 0) (.execIn 3 0),
      .connect (.dataOut 1 0) (.dataIn 2 0), .connect (.dataOut 2 0) (.dataIn 1 0),
      .connect (.dataOut 1 0) (.dataIn 3 0)]
  catalog := .ofPairs []
  config := {}

theorem Job.source_error_true_entangled :
    entangled.source = .error (.dataCycle 1 "Call T.f") ∧
      ∃ n, entangled.method.node? 1 = some n ∧ n.kind.isStatement = true ∧
        TransGen entangled.method.Feeds n n := by
  have h : entangled.source = .error (.dataCycle 1 "Call T.f") := by decide +kernel
  exact ⟨h, (Job.source_error_true h).2.2.1 1 "Call T.f" rfl⟩

end VisualScript
