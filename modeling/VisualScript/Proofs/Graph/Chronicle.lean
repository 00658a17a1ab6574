import VisualScript.Proofs.Json.Decoded

/-!
# Chronicles

A chronicle keeps every graph that there was in the course of a run, also those inside an edit and those that a
failed batch made and took back, and with each the id that was handed out to make it. The recorded operations do
to the graph what the plain ones do (`ChronicleM.Records`), and in a chronicle that they write, an id that is
handed out differs from all that stand before it.
-/

namespace VisualScript

open EditM

/-- A `method` of the past, and the id that was handed out when it came about. -/
structure Moment where
  method : Method
  issued : Option NodeId := none

namespace Moment

/-- Every id of the moment is below `bound`. -/
def Below (bound : NodeId) (t : Moment) : Prop :=
  (∀ n ∈ t.method.nodes, n.id < bound) ∧ ∀ id ∈ t.issued, id < bound

/-- What was `issued` later is the id of no node of the earlier moment and was not issued there. -/
def Fresh (later earlier : Moment) : Prop :=
  ∀ id ∈ later.issued, (∀ n ∈ earlier.method.nodes, n.id ≠ id) ∧ earlier.issued ≠ some id

theorem Below.mono {t : Moment} {a b : NodeId} (h : t.Below a) (hab : a ≤ b) : t.Below b :=
  ⟨fun n hn => Nat.lt_of_lt_of_le (h.1 n hn) hab, fun id hid => Nat.lt_of_lt_of_le (h.2 id hid) hab⟩

theorem Below.fresh {later earlier : Moment} {bound : NodeId} (h : earlier.Below bound)
    (hl : ∀ id ∈ later.issued, bound ≤ id) : later.Fresh earlier := by
  intro id hid
  have hle := hl id hid
  refine ⟨fun n hn heq => ?_, fun heq => ?_⟩
  · exact Nat.lt_irrefl _ (Nat.lt_of_lt_of_le (heq ▸ h.1 n hn) hle)
  · exact Nat.lt_irrefl _ (Nat.lt_of_lt_of_le (h.2 id heq) hle)

end Moment

/-- The moments of a run, of which `latest` is the present. -/
structure Chronicle where
  latest : Moment
  earlier : List Moment := []

namespace Chronicle

def now (k : Chronicle) : Method := k.latest.method

/-- All moments, `latest` first. -/
def moments (k : Chronicle) : List Moment := k.latest :: k.earlier

/-- Goes on with another moment. -/
def note (k : Chronicle) (t : Moment) : Chronicle := ⟨t, k.moments⟩

/-- No id of the past will be handed out (`below`), and none was handed out that was there before (`fresh`). -/
structure Sound (k : Chronicle) : Prop where
  below : ∀ t ∈ k.moments, t.Below k.now.nextId
  fresh : k.moments.Pairwise Moment.Fresh

/-- The chronicle `k'` goes on from `k`, and the method is its present. -/
structure Reaches (k k' : Chronicle) (m : Method) : Prop where
  now : k'.now = m
  sound : k'.Sound
  suffix : k.moments <:+ k'.moments

variable {k k' k'' : Chronicle} {m m' : Method}

theorem Sound.reaches (h : k.Sound) : k.Reaches k k.now := ⟨rfl, h, List.suffix_rfl⟩

theorem Reaches.trans (h : k.Reaches k' m) (h' : k'.Reaches k'' m') : k.Reaches k'' m' :=
  ⟨h'.now, h'.sound, h.suffix.trans h'.suffix⟩

/-- A moment may be noted if its counter is not set back and if it hands out no id below the counter. -/
theorem Sound.note (h : k.Sound) {t : Moment} (hnext : k.now.nextId ≤ t.method.nextId)
    (ht : t.Below t.method.nextId) (hissued : ∀ id ∈ t.issued, k.now.nextId ≤ id) :
    k.Reaches (k.note t) t.method := by
  refine ⟨rfl, ⟨fun s hs => ?_, ?_⟩, List.suffix_cons _ _⟩
  · rcases List.mem_cons.1 hs with rfl | hs
    · exact ht
    · exact (h.below s hs).mono hnext
  · refine List.pairwise_cons.2 ⟨fun s hs => ?_, h.fresh⟩
    exact (h.below s hs).fresh hissued

end Chronicle

/-! ### Recorded operations -/

/-- An operation on the `now` of a chronicle that is recorded. -/
abbrev ChronicleM := EditM Chronicle

namespace ChronicleM

variable {α β : Type}

/-- Records one operation of the graph; `issued` tells the id that it hands out. -/
def record (x : GraphM α) (issued : α → Option NodeId := fun _ => none) : ChronicleM α := do
  let k ← get
  match x.exec k.now with
  | (.ok a, m) =>
    set (k.note ⟨m, issued a⟩)
    return a
  | (.error e, m) =>
    set (k.note ⟨m, none⟩)
    throw e

def addNode (kind : NodeKind) (position : Position) : ChronicleM NodeId :=
  record (GraphM.addNode kind position) some

end ChronicleM

/-- Edits are applied to a chronicle by recording what they do to `now`. -/
instance : Host Chronicle where
  present := Chronicle.now
  addNode := ChronicleM.addNode
  perform x := ChronicleM.record x

theorem Host.present_chronicle (k : Chronicle) : Host.present k = k.now := rfl

/-- `Edit.apply`, recorded. -/
def Edit.recorded (c : TypeCatalog) (e : Edit) : ChronicleM Edit := applyWith (rollBack c e.turns) c e

namespace ChronicleM

variable {α β : Type}

/-- The recorded operation `y` answers and does what the plain `x` does, and it goes on with the chronicle. -/
def Records (y : ChronicleM α) (x : GraphM α) : Prop :=
  ∀ k, k.Sound → (y.exec k).1 = (x.exec k.now).1 ∧ k.Reaches (y.exec k).2 (x.exec k.now).2

/-- Seen from any chronicle, to record is to be in step with what is recorded: `Couples` for `Reaches`. -/
theorem records_iff {y : ChronicleM α} {x : GraphM α} :
    Records y x ↔ ∀ k : Chronicle, Couples k.Reaches (fun _ => True) y x := by
  constructor
  · intro h k k' m hreach
    obtain ⟨hanswer, hreach'⟩ := h k' hreach.sound
    rw [hreach.now] at hanswer hreach'
    exact ⟨hanswer, hreach.trans hreach', fun _ _ => trivial⟩
  · intro h k hk
    obtain ⟨hanswer, hreach, -⟩ := h k k k.now hk.reaches
    exact ⟨hanswer, hreach⟩

end ChronicleM

/-! ### What is handed out -/

/-- The counter stands at `bound` or above it, and above the id of every node. -/
def Method.Counts (bound : NodeId) (m : Method) : Prop := bound ≤ m.nextId ∧ ∀ n ∈ m.nodes, n.id < m.nextId

theorem Method.counts_shape {bound : NodeId} {m : Method} : m.shape.Counts bound ↔ m.Counts bound :=
  and_congr Iff.rfl List.forall_mem_map

theorem Method.upheld_counts (bound : NodeId) : Upheld (Method.Counts bound) fun _ => True where
  ofShape hm hs := Method.counts_shape.1 (hs ▸ Method.counts_shape.2 hm)
  added {m kind} position hm hk := by
    refine ⟨Nat.le_succ_of_le hm.1, fun n hn => ?_⟩
    rcases List.mem_append.1 hn with hn | hn
    · exact Nat.lt_succ_of_lt (hm.2 n hn)
    · rw [List.mem_singleton.1 hn]
      exact Nat.lt_succ_self _
  inserted {m a} hm _ _ _ := by
    refine ⟨Nat.le_trans hm.1 (Nat.le_max_left _ _), fun n hn => ?_⟩
    rcases mem_placeNode.1 hn with rfl | hn
    · exact Nat.lt_of_lt_of_le (Nat.lt_succ_self _) (Nat.le_max_right _ _)
    · exact Nat.lt_of_lt_of_le (hm.2 n hn) (Nat.le_max_left _ _)
  removed hm _ _ := ⟨⟨hm.1, fun n hn => hm.2 n (List.mem_of_mem_filter hn)⟩, trivial⟩

theorem Method.kept_counts (c : TypeCatalog) (bound : NodeId) : Kept c (Method.Counts bound) fun _ => True :=
  (Method.upheld_counts bound).kept c

namespace ChronicleM

variable {α : Type}

theorem exec_record (x : GraphM α) (issued : α → Option NodeId) (k : Chronicle) :
    (record x issued).exec k = match x.exec k.now with
      | (.ok a, m) => (.ok a, k.note ⟨m, issued a⟩)
      | (.error e, m) => (.error e, k.note ⟨m, none⟩) := by
  unfold record
  rw [exec_get_bind]
  rcases x.exec k.now with ⟨e | a, m⟩ <;> rfl

/-- An operation keeps `Counts` and hands out only ids which it counted past: then it can be recorded. -/
theorem records_record {Q : α → Prop} {x : GraphM α} {issued : α → Option NodeId}
    (hx : ∀ bound, GraphM.Yields (Method.Counts bound) Q x)
    (hi : ∀ m a id, (x.exec m).1 = .ok a → id ∈ issued a → m.nextId ≤ id ∧ id < (x.exec m).2.nextId) :
    Records (record x issued) x := by
  intro k hk
  have hcounts : k.now.Counts k.now.nextId :=
    ⟨Nat.le_refl _, (hk.below k.latest (by simp [Chronicle.moments])).1⟩
  obtain ⟨hnext, hbelow⟩ := (hx k.now.nextId k.now hcounts).1
  rw [exec_record]
  rcases hr : x.exec k.now with ⟨e | a, m⟩ <;> rw [hr] at hnext hbelow
  · exact ⟨rfl, hk.note hnext ⟨hbelow, nofun⟩ nofun⟩
  · have hissued := fun id => hi k.now a id (by rw [hr])
    rw [hr] at hissued
    exact ⟨rfl, hk.note hnext ⟨hbelow, fun id hid => (hissued id hid).2⟩ fun id hid => (hissued id hid).1⟩

theorem records_addNode (kind : NodeKind) (position : Position) :
    Records (addNode kind position) (GraphM.addNode kind position) := by
  refine records_record (fun bound => GraphM.yields_addNode (Method.upheld_counts bound) kind position) ?_
  intro m a id ha hid
  cases hk : kind.isEntry with
  | true =>
    rw [GraphM.exec_addNode_error hk] at ha
    cases ha
  | false =>
    rw [GraphM.exec_addNode_append position hk] at ha ⊢
    cases ha
    cases hid
    exact ⟨Nat.le_refl _, Nat.lt_succ_self _⟩

/-- `records_record` for what hands out no id. -/
theorem records_step {Q : α → Prop} {x : GraphM α} (hx : ∀ bound, GraphM.Yields (Method.Counts bound) Q x) :
    Records (record x) x := records_record hx nofun

end ChronicleM

open ChronicleM

/-- Recorded operations are in step with the plain ones, for `Reaches`. -/
theorem Chronicle.fullyCoupled_reaches (c : TypeCatalog) (k : Chronicle) :
    FullyCoupled c k.Reaches fun _ => True where
  alike h := by
    rw [Host.present_chronicle, Host.present_method, h.now]
    exact .refl _
  addNode kind position := records_iff.1 (records_addNode kind position) k
  insertNode _ := records_iff.1 (records_step fun bound => (Method.kept_counts c bound).insertNode trivial) k
  removeNode id := records_iff.1 (records_step fun bound => (Method.kept_counts c bound).removeNode id) k
  connect a b := records_iff.1 (records_step fun bound => (Method.kept_counts c bound).connect a b) k
  unlink l := records_iff.1 (records_step fun bound => (Method.kept_counts c bound).unlink l) k
  disconnect pin := records_iff.1 (records_step fun bound => (Method.kept_counts c bound).disconnect pin) k

theorem Edit.records_apply (c : TypeCatalog) (e : Edit) : Records (e.recorded c) (e.apply c) := by
  refine records_iff.2 fun k => ?_
  have hputs := e.puts_of_forall (N := fun _ => True) fun _ => trivial
  have hfull := Chronicle.fullyCoupled_reaches c k
  intro k' m hreach
  obtain ⟨hanswer, hreach', -⟩ := couples_applyWith hfull (related_rollBack hfull e.turns) e hputs k' m hreach
  exact ⟨hanswer, hreach', fun _ _ => trivial⟩

/-! ### Runs with saving and loading -/

/-- What happens to a method in the course of a run. -/
inductive Event where
  | operation (c : TypeCatalog) (op : Operation)
  /-- The method is written and what is written is decoded. -/
  | reload

namespace Event

/-- The method that the event leaves behind. One that `ofJson` refuses stays as it was. -/
def after (m : Method) : Event → Method
  | .operation c op => op.after c m
  | .reload =>
    match Method.ofJson m.toJson.document with
    | .ok m' => m'
    | .error _ => m

/-- The chronicle with the event recorded. -/
def record (k : Chronicle) : Event → Chronicle
  | .operation _ (.addNode kind position) => ((ChronicleM.addNode kind position).exec k).2
  | .operation _ (.insertNode node) => ((ChronicleM.record (GraphM.insertNode node)).exec k).2
  | .operation _ (.removeNode id) => ((ChronicleM.record (GraphM.removeNode id)).exec k).2
  | .operation c (.connect a b) => ((ChronicleM.record (GraphM.connect c a b)).exec k).2
  | .operation _ (.unlink l) => ((ChronicleM.record (GraphM.unlink l)).exec k).2
  | .operation _ (.disconnect pin) => ((ChronicleM.record (GraphM.disconnect pin)).exec k).2
  | .operation _ (.disconnectAll id) => ((ChronicleM.record (GraphM.disconnectAll id)).exec k).2
  | .operation c (.edit e) => ((e.recorded c).exec k).2
  | .reload => k.note ⟨Event.reload.after k.now, none⟩

theorem reaches_record {k : Chronicle} (hk : k.Sound) (event : Event) :
    k.Reaches (event.record k) (event.after k.now) := by
  cases event with
  | operation c op =>
    have hkept := Method.kept_counts c
    cases op with
    | addNode kind position => exact (records_addNode kind position k hk).2
    | insertNode node => exact (records_step (fun bound => (hkept bound).insertNode trivial) k hk).2
    | removeNode id => exact (records_step (fun bound => (hkept bound).removeNode id) k hk).2
    | connect a b => exact (records_step (fun bound => (hkept bound).connect a b) k hk).2
    | unlink l => exact (records_step (fun bound => (hkept bound).unlink l) k hk).2
    | disconnect pin => exact (records_step (fun bound => (hkept bound).disconnect pin) k hk).2
    | disconnectAll id => exact (records_step (fun bound => (hkept bound).disconnectAll id) k hk).2
    | edit e => exact (e.records_apply c k hk).2
  | reload =>
    -- a counter that is decoded is not set back, and it is above all ids
    have hnow := (hk.below k.latest (by simp [Chronicle.moments])).1
    have hreload : k.now.nextId ≤ (Event.reload.after k.now).nextId ∧
        ∀ n ∈ (Event.reload.after k.now).nodes, n.id < (Event.reload.after k.now).nextId := by
      unfold after
      cases hread : Method.ofJson k.now.toJson.document with
      | ok m => exact ⟨Method.nextId_le_of_ofJson hread, (Method.identified_of_ofJson hread).bounded⟩
      | error e => exact ⟨Nat.le_refl _, hnow⟩
    exact hk.note hreload.1 ⟨hreload.2, nofun⟩ nofun

end Event

namespace Chronicle

/-- The chronicle of a run that begins with the method. -/
def ofRun (m : Method) (events : List Event) : Chronicle := events.foldl Event.record ⟨⟨m, none⟩, []⟩

theorem sound_begin {m : Method} (h : ∀ n ∈ m.nodes, n.id < m.nextId) : Sound ⟨⟨m, none⟩, []⟩ := by
  refine ⟨fun t ht => ?_, List.pairwise_singleton _ _⟩
  rw [List.mem_singleton.1 ht]
  exact ⟨h, nofun⟩

theorem reaches_foldl {k : Chronicle} (hk : k.Sound) (events : List Event) :
    k.Reaches (events.foldl Event.record k) (events.foldl Event.after k.now) := by
  induction events generalizing k with
  | nil => exact hk.reaches
  | cons event events ih =>
    have hevent := event.reaches_record hk
    have hrest := ih hevent.sound
    rw [hevent.now] at hrest
    exact hevent.trans hrest

end Chronicle

/-- The edit `addNode` tells the id of the node in the edit that takes the node out again. -/
theorem Edit.exec_addNode_of_apply {c : TypeCatalog} {kind : NodeKind} {position : Position} {m : Method}
    {id : NodeId} (h : (((Edit.addNode kind position).apply c).exec m).1 = .ok (.removeNode id)) :
    ((GraphM.addNode kind position).exec m).1 = .ok id := by
  unfold Edit.apply Edit.applyWith at h
  rw [Host.addNode_method, exec_bind] at h
  rcases hadd : (GraphM.addNode kind position).exec m with ⟨e | id', m'⟩ <;> rw [hadd] at h
  · cases h
  · cases h
    rfl

/-- In the course of a run that begins with a method as programs come by it (`Obtained`), no id is handed out that
a node had or that was handed out at any of the `moments` before, and the next one that is handed out will be as
fresh. The chronicle ends with the method that the run ends with, and it has the method after every event. -/
theorem Method.issued_once {m : Method} (h : m.Obtained) (events : List Event) :
    (Chronicle.ofRun m events).now = events.foldl Event.after m ∧
      (∀ past, past <+: events → ∃ t ∈ (Chronicle.ofRun m events).moments, t.method = past.foldl Event.after m) ∧
      (Chronicle.ofRun m events).moments.Pairwise Moment.Fresh ∧
      ∀ c kind position id,
        ((GraphM.addNode kind position).exec (events.foldl Event.after m)).1 = .ok id ∨
          (((Edit.addNode kind position).apply c).exec (events.foldl Event.after m)).1 = .ok (.removeNode id) →
        ∀ t ∈ (Chronicle.ofRun m events).moments, (∀ n ∈ t.method.nodes, n.id ≠ id) ∧ t.issued ≠ some id := by
  have hbegin := Chronicle.sound_begin h.identified.bounded
  have hrun : Chronicle.Reaches _ (Chronicle.ofRun m events) _ := Chronicle.reaches_foldl hbegin events
  refine ⟨hrun.now, fun past hpast => ?_, hrun.sound.fresh, fun c kind position id hid t ht => ?_⟩
  · -- the chronicle of the past is what the whole one goes on from
    obtain ⟨rest, rfl⟩ := hpast
    have hpast : Chronicle.Reaches _ (Chronicle.ofRun m past) _ := Chronicle.reaches_foldl hbegin past
    have hrest := (Chronicle.reaches_foldl hpast.sound rest).suffix
    refine ⟨(Chronicle.ofRun m past).latest, ?_, hpast.now⟩
    unfold Chronicle.ofRun at hrest ⊢
    rw [List.foldl_append]
    exact hrest.mem List.mem_cons_self
  · have hissued : id = (events.foldl Event.after m).nextId := by
      have hadd := hid.elim (fun h => h) Edit.exec_addNode_of_apply
      cases hk : kind.isEntry with
      | true =>
        rw [GraphM.exec_addNode_error hk] at hadd
        cases hadd
      | false =>
        rw [GraphM.exec_addNode_append position hk] at hadd
        exact (Except.ok.inj hadd).symm
    have hbelow := hrun.sound.below t ht
    rw [hrun.now] at hbelow
    have hfresh : Moment.Fresh ⟨m, some id⟩ t := hbelow.fresh fun i hi => by
      cases hi
      exact Nat.le_of_eq hissued.symm
    exact hfresh id rfl

/-- A batch that adds a node and fails, and then the method is saved and loaded. -/
def mishap : List Event :=
  [.operation (.ofPairs []) (.edit (.batch [.addNode .ifElse {}, .removeNode 7])), .reload]

/-- After `mishap` the node is gone, and its id stays taken. -/
theorem Method.issued_once_mishap :
    (mishap.foldl Event.after (Method.make "main" [] [])).nodes.map (·.id) = [0] ∧
      (∃ t ∈ (Chronicle.ofRun (Method.make "main" [] []) mishap).moments, t.method.nodes.map (·.id) = [0, 1]) ∧
      ((GraphM.addNode .forLoop {}).exec (mishap.foldl Event.after (Method.make "main" [] []))).1 = .ok 2 ∧
      ∀ t ∈ (Chronicle.ofRun (Method.make "main" [] []) mishap).moments, ∀ n ∈ t.method.nodes, n.id ≠ 2 := by
  have hadd :
      ((GraphM.addNode .forLoop {}).exec (mishap.foldl Event.after (Method.make "main" [] []))).1 = .ok 2 := by
    decide +kernel
  obtain ⟨-, -, -, hfresh⟩ := Method.issued_once (.make "main" [] []) mishap
  exact ⟨by decide +kernel, by decide +kernel, hadd,
    fun t ht => (hfresh (.ofPairs []) .forLoop {} 2 (.inl hadd) t ht).1⟩

end VisualScript
