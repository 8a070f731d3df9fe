import QubitRouting.Circuit.Record
import QubitRouting.Placement.Layout
import QubitRouting.Proofs.Json.Record
import QubitRouting.Table.Record

/-!
Reading back what was written. Circuits, paths, routing entries and layouts are read from their
JSON trees as they were; and a circuit is read from every tree in which, at any depth, fields with
default values are left out and fields that nobody looks for are added.
-/

namespace QubitRouting

open Json

section Words

def GateKind.InWords : GateKind → Prop
  | .pauli _ root _ => root < wordBound
  | _ => True

structure Gate.InWords (g : Gate) : Prop where
  kind : g.kind.InWords
  controls : ∀ c ∈ g.controls, c.line < wordBound
  targets : ∀ q ∈ g.targets, q < wordBound

structure Circuit.InWords (c : Circuit) : Prop where
  lines : c.lines < wordBound
  gates : ∀ g ∈ c.gates, g.InWords

def Path.InWords (p : Path) : Prop := ∀ m ∈ p, ∀ q ∈ m.qubits, q < wordBound

theorem Json.word?_nat {n : Nat} (h : n < wordBound) : Json.word? (.nat n) = some n := by
  have hint : (n : Int) < wordBound := Int.ofNat_lt.2 h
  change (if 0 ≤ (n : Int) ∧ (n : Int) < wordBound then some (n : Int).toNat else none) = some n
  rw [if_pos ⟨Int.natCast_nonneg n, hint⟩, Int.toNat_natCast]

end Words

section Objects

def Control.slots (c : Control) : List Slot :=
  [⟨"line", (· = .nat c.line), False⟩, ⟨"polarity", (· = .bool c.positive), c.positive = true⟩]

def GateKind.slots : GateKind → List Slot
  | .toffoli => [⟨"type", (· = .str "toffoli"), False⟩]
  | .hadamard => [⟨"type", (· = .str "hadamard"), False⟩]
  | .pauli axis root adjoint =>
    [⟨"type", (· = .str "pauli"), False⟩, ⟨"axis", (· = .str axis.name), False⟩,
      ⟨"root", (· = .nat root), False⟩, ⟨"adjoint", (· = .bool adjoint), adjoint = false⟩]
  | .v adjoint =>
    [⟨"type", (· = .str "v"), False⟩, ⟨"adjoint", (· = .bool adjoint), adjoint = false⟩]

def Control.Object (c : Control) : Json → Prop := ObjectOf c.slots

/-- The objects of a kind. What is added has to denote values, since a kind is read as a whole. -/
def GateKind.Object (k : GateKind) (j : Json) : Prop := j.isSound = true ∧ ObjectOf k.slots j

def Gate.slots (g : Gate) : List Slot :=
  [⟨"kind", g.kind.Object, False⟩, ⟨"controls", ListOf Control.Object g.controls, g.controls = []⟩,
    ⟨"targets", ListOf (fun q j => j = .nat q) g.targets, False⟩]

def Gate.Object (g : Gate) : Json → Prop := ObjectOf g.slots

def Circuit.slots (c : Circuit) : List Slot :=
  [⟨"name", (· = .str c.name), c.name = defaultName⟩, ⟨"num_lines", (· = .nat c.lines), False⟩,
    ⟨"gates", ListOf Gate.Object c.gates, c.gates = []⟩]

def Circuit.Object (c : Circuit) : Json → Prop := ObjectOf c.slots

def RoutingEntry.slots (e : RoutingEntry) : List Slot :=
  [⟨"cost", (· = .nat e.cost), False⟩, ⟨"path", (· = e.path.toJson), False⟩]

def RoutingEntry.Object (e : RoutingEntry) : Json → Prop := ObjectOf e.slots

end Objects

section Encoding

theorem Control.object_toJson (c : Control) : c.Object c.toJson :=
  ⟨_, rfl, .full (.cons ⟨rfl, rfl⟩ (.cons ⟨rfl, rfl⟩ .nil))⟩

theorem GateKind.object_toJson (k : GateKind) : k.Object k.toJson := by
  cases k with
  | toffoli => exact ⟨rfl, _, rfl, .full (.cons ⟨rfl, rfl⟩ .nil)⟩
  | hadamard => exact ⟨rfl, _, rfl, .full (.cons ⟨rfl, rfl⟩ .nil)⟩
  | pauli axis root adjoint =>
    exact ⟨rfl, _, rfl, .full (.cons ⟨rfl, rfl⟩ (.cons ⟨rfl, rfl⟩ (.cons ⟨rfl, rfl⟩
      (.cons ⟨rfl, rfl⟩ .nil))))⟩
  | v adjoint => exact ⟨rfl, _, rfl, .full (.cons ⟨rfl, rfl⟩ (.cons ⟨rfl, rfl⟩ .nil))⟩

/-- Controls that are not written are left out, as there are none. -/
theorem Gate.object_toJson (g : Gate) : g.Object g.toJson := by
  have hkind := g.kind.object_toJson
  have hcontrols : ListOf Control.Object g.controls (.arr (g.controls.map Control.toJson)) :=
    listOf_map fun c _ => c.object_toJson
  have htargets : ListOf (fun q j => j = .nat q) g.targets (.arr (g.targets.map Json.nat)) :=
    listOf_map_eq Json.nat g.targets
  have full : RecordOf g.slots [("kind", g.kind.toJson),
      ("controls", .arr (g.controls.map Control.toJson)),
      ("targets", .arr (g.targets.map Json.nat))] :=
    .full (.cons ⟨rfl, hkind⟩ (.cons ⟨rfl, hcontrols⟩ (.cons ⟨rfl, htargets⟩ .nil)))
  cases hnone : g.controls with
  | nil =>
    refine ⟨_, by rw [toJson, hnone], ?_⟩
    exact .leaveOut (List.mem_cons_of_mem _ List.mem_cons_self) hnone
      (.reorder (.swap _ _ _) full)
  | cons c rest =>
    rw [hnone] at full
    exact ⟨_, by rw [toJson, hnone]; rfl, full⟩

theorem Circuit.object_toJson (c : Circuit) : c.Object c.toJson := by
  have hgates : ListOf Gate.Object c.gates (.arr (c.gates.map Gate.toJson)) :=
    listOf_map fun g _ => g.object_toJson
  exact ⟨_, rfl, .full (.cons ⟨rfl, rfl⟩ (.cons ⟨rfl, rfl⟩ (.cons ⟨rfl, hgates⟩ .nil)))⟩

theorem RoutingEntry.object_toJson (e : RoutingEntry) : e.Object e.toJson :=
  ⟨_, rfl, .full (.cons ⟨rfl, rfl⟩ (.cons ⟨rfl, rfl⟩ .nil))⟩

end Encoding

section Decoding

variable {j : Json}

theorem word?_of_eq {n : Nat} (h : n < wordBound) : ∀ j, j = .nat n → Json.word? j = some n := by
  rintro _ rfl
  exact Json.word?_nat h

theorem bool?_of_eq (b : Bool) : ∀ j, j = .bool b → Json.bool? j = some b := by
  rintro _ rfl
  rfl

theorem str?_of_eq (s : String) : ∀ j, j = .str s → Json.str? j = some s := by
  rintro _ rfl
  rfl

theorem Control.ofJson?_of_object {c : Control} (hc : c.line < wordBound) (h : c.Object j) :
    Control.ofJson? j = some c := by
  obtain ⟨fields, rfl, h⟩ := h
  obtain ⟨hline, hpolarity⟩ := h.heldBy (by simp [slots])
  obtain ⟨line, hline, readline⟩ := hline.required not_false (word?_of_eq hc)
  obtain ⟨polarity, hpolarity, readpolarity⟩ := hpolarity.optional id (bool?_of_eq c.positive)
  have hrecord : (Json.obj fields).record? ["line", "polarity"] = some [line, polarity] :=
    mapM_eq_some_iff.2 (.cons hline (.cons hpolarity .nil))
  rw [ofJson?, hrecord]
  simp [readline, readpolarity]

theorem Axis.ofName?_name (axis : Axis) : Axis.ofName? axis.name = some axis := by
  cases axis <;> rfl

namespace GateKind

theorem axis?_of_eq (axis : Axis) : ∀ j, j = .str axis.name → axis? j = some axis := by
  rintro _ rfl
  exact axis.ofName?_name

variable {fields : List (String × Json)}

/-- The tag is taken out, and the other slots stay held. -/
theorem untag?_of_held {tag : String}
    (h : (⟨"type", (· = .str tag), False⟩ : Slot).HeldBy fields) :
    ∃ rest, untag? (.obj fields) = some (tag, .obj rest) ∧
      ∀ s : Slot, s.key ≠ "type" → s.HeldBy fields → s.HeldBy rest := by
  obtain ⟨found, hfound, hread⟩ := h.required not_false (str?_of_eq tag)
  refine ⟨fields.filter (·.1 ≠ "type"), ?_, fun s hkey hs => hs.keep hkey⟩
  simp [untag?, hfound, hread]

theorem ofJson?_of_object {k : GateKind} (hk : k.InWords) (h : k.Object j) :
    GateKind.ofJson? j = some k := by
  obtain ⟨hsound, fields, rfl, h⟩ := h
  cases k with
  | toffoli =>
    have htype := h.heldBy (by simp [slots])
    obtain ⟨rest, htag, -⟩ := untag?_of_held htype
    simp [ofJson?, hsound, htag, plain?]
  | hadamard =>
    have htype := h.heldBy (by simp [slots])
    obtain ⟨rest, htag, -⟩ := untag?_of_held htype
    simp [ofJson?, hsound, htag, plain?]
  | pauli axis root adjoint =>
    obtain ⟨htype, haxis, hroot, hadjoint⟩ := h.heldBy (by simp [slots])
    obtain ⟨rest, htag, hkeep⟩ := untag?_of_held htype
    obtain ⟨foundaxis, haxis, readaxis⟩ :=
      (hkeep _ (by simp) haxis).required not_false (axis?_of_eq axis)
    obtain ⟨foundroot, hroot, readroot⟩ :=
      (hkeep _ (by simp) hroot).required not_false (word?_of_eq hk)
    obtain ⟨foundadjoint, hadjoint, readadjoint⟩ :=
      (hkeep _ (by simp) hadjoint).optional id (bool?_of_eq adjoint)
    have hrecord : (Json.obj rest).record? ["axis", "root", "adjoint"] =
        some [foundaxis, foundroot, foundadjoint] :=
      mapM_eq_some_iff.2 (.cons haxis (.cons hroot (.cons hadjoint .nil)))
    simp [ofJson?, hsound, htag, hrecord, readaxis, readroot, readadjoint]
  | v adjoint =>
    obtain ⟨htype, hadjoint⟩ := h.heldBy (by simp [slots])
    obtain ⟨rest, htag, hkeep⟩ := untag?_of_held htype
    obtain ⟨found, hfound, hread⟩ :=
      (hkeep _ (by simp) hadjoint).optional id (bool?_of_eq adjoint)
    have hrecord : (Json.obj rest).record? ["adjoint"] = some [found] :=
      mapM_eq_some_iff.2 (.cons hfound .nil)
    simp [ofJson?, hsound, htag, hrecord, hread]

end GateKind

theorem Gate.ofJson?_of_object {g : Gate} (hg : g.InWords) (h : g.Object j) :
    Gate.ofJson? j = some g := by
  obtain ⟨fields, rfl, h⟩ := h
  obtain ⟨hkind, hcontrols, htargets⟩ := h.heldBy (by simp [slots])
  obtain ⟨kind, hkind, readkind⟩ :=
    hkind.required not_false fun _ hj => GateKind.ofJson?_of_object hg.kind hj
  obtain ⟨controls, hcontrols, readcontrols⟩ := hcontrols.optional id fun _ hj =>
    hj.list? fun c hc _ => Control.ofJson?_of_object (hg.controls c hc)
  obtain ⟨targets, htargets, readtargets⟩ := htargets.required not_false fun _ hj =>
    hj.list? fun q hq => word?_of_eq (hg.targets q hq)
  have hrecord : (Json.obj fields).record? ["kind", "controls", "targets"] =
      some [kind, controls, targets] :=
    mapM_eq_some_iff.2 (.cons hkind (.cons hcontrols (.cons htargets .nil)))
  rw [ofJson?, hrecord]
  simp [readkind, readcontrols, readtargets]

theorem Circuit.ofJson?_of_object {c : Circuit} (hc : c.InWords) (h : c.Object j) :
    Circuit.ofJson? j = some c := by
  obtain ⟨fields, rfl, h⟩ := h
  obtain ⟨hname, hlines, hgates⟩ := h.heldBy (by simp [slots])
  obtain ⟨name, hname, readname⟩ := hname.optional id (str?_of_eq c.name)
  obtain ⟨lines, hlines, readlines⟩ := hlines.required not_false (word?_of_eq hc.lines)
  obtain ⟨gates, hgates, readgates⟩ := hgates.optional id fun _ hj =>
    hj.list? fun g hg _ => Gate.ofJson?_of_object (hc.gates g hg)
  have hrecord : (Json.obj fields).record? ["name", "num_lines", "gates"] =
      some [name, lines, gates] :=
    mapM_eq_some_iff.2 (.cons hname (.cons hlines (.cons hgates .nil)))
  rw [ofJson?, hrecord]
  simp [readname, readlines, readgates]

theorem list?_word?_map {ns : List Nat} (h : ∀ n ∈ ns, n < wordBound) :
    Json.list? Json.word? (.arr (ns.map Json.nat)) = some ns :=
  (listOf_map_eq Json.nat ns).list? fun n hn => word?_of_eq (h n hn)

theorem Move.ofJson?_toJson {m : Move} (hm : ∀ q ∈ m.qubits, q < wordBound) :
    Move.ofJson? m.toJson = some m := by
  rw [toJson, ofJson?, list?_word?_map hm]
  exact m.ofParts?_name_qubits

theorem Path.ofJson?_toJson {p : Path} (hp : p.InWords) : Path.ofJson? p.toJson = some p := by
  refine (listOf_map_eq Move.toJson p).list? ?_
  rintro m hm _ rfl
  exact Move.ofJson?_toJson (hp m hm)

theorem RoutingEntry.ofJson?_of_object {e : RoutingEntry} (hcost : e.cost < wordBound)
    (hpath : e.path.InWords) (h : e.Object j) : RoutingEntry.ofJson? j = some e := by
  obtain ⟨fields, rfl, h⟩ := h
  obtain ⟨hcostheld, hpathheld⟩ := h.heldBy (by simp [slots])
  obtain ⟨cost, hfoundcost, readcost⟩ := hcostheld.required not_false (word?_of_eq hcost)
  obtain ⟨path, hfoundpath, readpath⟩ := hpathheld.required not_false (by
    rintro _ rfl
    exact Path.ofJson?_toJson hpath)
  have hrecord : (Json.obj fields).record? ["cost", "path"] = some [cost, path] :=
    mapM_eq_some_iff.2 (.cons hfoundcost (.cons hfoundpath .nil))
  rw [ofJson?, hrecord]
  simp [readcost, readpath]

theorem Layout.ofJson?_toJson {l : Layout} (h : ∀ q ∈ l.images, q < wordBound) :
    Layout.ofJson? l.toJson = some l := by
  rw [toJson, ofJson?, list?_word?_map h]
  rfl

end Decoding

/-- What was written is read as it was: circuits of any gates, whether they fit or not, paths,
routing entries and layouts. A circuit is also read from every object that its fields make when, at
any depth, fields with default values are left out and others are added. -/
theorem read_what_was_written :
    (∀ c : Circuit, c.InWords →
      Circuit.ofJson? c.toJson = some c ∧ c.Object c.toJson ∧
        ∀ j, c.Object j → Circuit.ofJson? j = some c) ∧
    (∀ p : Path, p.InWords → Path.ofJson? p.toJson = some p) ∧
    (∀ e : RoutingEntry, e.cost < wordBound → e.path.InWords →
      RoutingEntry.ofJson? e.toJson = some e) ∧
    ∀ l : Layout, (∀ q ∈ l.images, q < wordBound) → Layout.ofJson? l.toJson = some l := by
  refine ⟨fun c hc => ?_, fun p => Path.ofJson?_toJson, fun e hcost hpath => ?_,
    fun l => Layout.ofJson?_toJson⟩
  · have hread : ∀ j, c.Object j → Circuit.ofJson? j = some c :=
      fun j => Circuit.ofJson?_of_object hc
    exact ⟨hread _ c.object_toJson, c.object_toJson, hread⟩
  · exact RoutingEntry.ofJson?_of_object hcost hpath e.object_toJson

/-- A circuit that is written without its name and with an author. Of its gate the adjoint mark and
the polarity are not written, and the kind has a note. -/
theorem read_shortened_circuit :
    let path : Path := [.cab 0 1, .nop 1 2, .relay ⟨.control, .along, true, 0, 1⟩]
    Circuit.ofJson? (.obj [("num_lines", .nat 2), ("author", .null), ("gates", .arr [
      .obj [("kind", .obj [("note", .null), ("type", .str "v")]),
        ("controls", .arr [.obj [("line", .nat 0)]]), ("targets", .arr [.nat 1])]])]) =
      some ⟨"circuit", 2, [⟨.v false, [⟨0, true⟩], [1]⟩]⟩ ∧
    Path.ofJson? path.toJson = some path ∧
    RoutingEntry.ofJson? (RoutingEntry.toJson ⟨12, path⟩) = some ⟨12, path⟩ ∧
    Layout.ofJson? (Layout.toJson ⟨[2, 0, 1]⟩) = some ⟨[2, 0, 1]⟩ := by
  intro path
  obtain ⟨hcircuit, hpath, hentry, hlayout⟩ := read_what_was_written
  have words : Circuit.InWords ⟨"circuit", 2, [⟨.v false, [⟨0, true⟩], [1]⟩]⟩ := by
    refine ⟨by decide, fun g hg => ?_⟩
    obtain rfl := List.mem_singleton.1 hg
    exact ⟨trivial, by decide, by decide⟩
  have pathwords : path.InWords := by
    change ∀ m ∈ path, ∀ q ∈ m.qubits, q < wordBound
    decide
  have hcontrol : Control.Object ⟨0, true⟩ (.obj [("line", .nat 0)]) := by
    have full : RecordOf (Control.slots ⟨0, true⟩)
        [("line", .nat 0), ("polarity", .bool true)] :=
      .full (.cons ⟨rfl, rfl⟩ (.cons ⟨rfl, rfl⟩ .nil))
    exact ⟨_, rfl, .leaveOut (List.mem_cons_of_mem _ List.mem_cons_self) rfl
      (.reorder (.swap _ _ _) full)⟩
  have hkind : (GateKind.v false).Object (.obj [("note", .null), ("type", .str "v")]) := by
    have full : RecordOf (GateKind.slots (.v false))
        [("type", .str "v"), ("adjoint", .bool false)] :=
      .full (.cons ⟨rfl, rfl⟩ (.cons ⟨rfl, rfl⟩ .nil))
    exact ⟨rfl, _, rfl, .add (by decide) (.leaveOut (List.mem_cons_of_mem _ List.mem_cons_self) rfl
      (.reorder (.swap _ _ _) full))⟩
  have hgate : Gate.Object ⟨.v false, [⟨0, true⟩], [1]⟩ (.obj
      [("kind", .obj [("note", .null), ("type", .str "v")]),
        ("controls", .arr [.obj [("line", .nat 0)]]), ("targets", .arr [.nat 1])]) :=
    ⟨_, rfl, .full (.cons ⟨rfl, hkind⟩ (.cons ⟨rfl, _, rfl, .cons hcontrol .nil⟩
      (.cons ⟨rfl, listOf_map_eq Json.nat [1]⟩ .nil)))⟩
  refine ⟨(hcircuit _ words).2.2 _ ?_, hpath _ pathwords, hentry _ (by decide) pathwords,
    hlayout _ (by decide)⟩
  have full : RecordOf (Circuit.slots ⟨"circuit", 2, [⟨.v false, [⟨0, true⟩], [1]⟩]⟩)
      [("name", .str "circuit"), ("num_lines", .nat 2), ("gates", .arr [_])] :=
    .full (.cons ⟨rfl, rfl⟩ (.cons ⟨rfl, rfl⟩ (.cons ⟨rfl, _, rfl, .cons hgate .nil⟩ .nil)))
  exact ⟨_, rfl, .reorder (.swap _ _ _) (.add (by decide) (.leaveOut List.mem_cons_self rfl full))⟩

end QubitRouting
