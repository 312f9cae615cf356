import ClassPatch.Flow.Basic
import ClassPatch.Proofs.InstructionList.Labels
/-!
# Positions of labels

The position that the analysis of a body knows for a label is that of the instruction which the label
is bound to.

* `Represents` — a map has the place of every label in some groups

Main statements: `Represents.mark`, by which the next group gets its place, and
`Positions.labels_ofList`.
-/

namespace ClassPatch

/-- A map has the place of each label that is in one of some groups: the one that belongs to the
group. -/
def Represents (labels : Std.TreeMap Nat Nat) (groups : List (List Label)) (offsets : List Nat) :
    Prop :=
  ∀ label : Label, labels[label.id]? =
    (groups.findIdx? fun group => decide (label ∈ group)).bind fun i => offsets[i]?

theorem getElem?_mark (labels : Std.TreeMap Nat Nat) (pos : Nat) (ls : List Label) (label : Label) :
    (Positions.mark labels pos ls)[label.id]? =
      if label ∈ ls then some pos else labels[label.id]? := by
  induction ls generalizing labels with
  | nil => simp [Positions.mark]
  | cons l ls inductionHypothesis =>
    have step : Positions.mark labels pos (l :: ls) =
        Positions.mark (labels.insert l.id pos) pos ls := rfl
    rw [step, inductionHypothesis, Std.TreeMap.getElem?_insert]
    have same : l.id = label.id ↔ label = l := by
      cases l; cases label; simp [eq_comm]
    by_cases later : label ∈ ls <;> by_cases here : label = l <;> simp_all

theorem represents_empty : Represents {} [] [] := by
  intro label
  simp

theorem Represents.mark {labels : Std.TreeMap Nat Nat} {groups : List (List Label)}
    {offsets : List Nat} (represents : Represents labels groups offsets)
    (sameLength : groups.length = offsets.length) {group : List Label}
    (apart : ∀ label ∈ group, label ∉ groups.flatten) (pos : Nat) :
    Represents (Positions.mark labels pos group) (groups ++ [group]) (offsets ++ [pos]) := by
  intro label
  rw [getElem?_mark, List.findIdx?_append]
  split
  · next here =>
    have before : (groups.findIdx? fun group => decide (label ∈ group)) = none := by
      rw [List.findIdx?_eq_none_iff]
      intro other among
      simpa using fun member => apart label here (List.mem_flatten.2 ⟨other, among, member⟩)
    simp [before, List.findIdx?_cons, here, sameLength]
  · next notHere =>
    rw [represents label]
    cases found : groups.findIdx? fun group => decide (label ∈ group) with
    | none => simp [List.findIdx?_cons, notHere]
    | some i =>
      have bound : i < offsets.length := by
        rw [← sameLength]
        exact (List.findIdx?_eq_some_iff_getElem.1 found).1
      simp [List.getElem?_append_left bound]

/-- Groups at ascending places, one behind the other. -/
theorem represents_zipIdx {labels : Std.TreeMap Nat Nat} {groups : List (List Label)}
    {offsets : List Nat} (represents : Represents labels groups offsets)
    (sameLength : groups.length = offsets.length) (start : Nat) {nodes : List (NodeId × Node)}
    (once : (groups ++ nodes.map fun x => x.2.labels).flatten.Nodup) :
    Represents
      ((nodes.zipIdx start).foldl (fun labels ((_, n), pos) => Positions.mark labels pos n.labels)
        labels)
      (groups ++ nodes.map fun x => x.2.labels)
      (offsets ++ (List.range' start nodes.length)) := by
  induction nodes generalizing labels groups offsets start with
  | nil => simpa using represents
  | cons node nodes inductionHypothesis =>
    have apart : ∀ label ∈ node.2.labels, label ∉ groups.flatten := by
      intro label here before
      rw [List.flatten_append, List.nodup_append] at once
      exact once.2.2 label before label (by simp [here]) rfl
    have rest := inductionHypothesis (represents.mark sameLength apart start) (by simp [sameLength])
      (start + 1) (by simpa using once)
    simpa [List.range'_succ] using rest

namespace Positions

theorem nodup_nodes {l : InstructionList} (wellFormed : l.WellFormed) :
    (l.toList.map fun x => x.2.labels).flatten.Nodup ∧
      ∀ label ∈ l.endLabels, label ∉ (l.toList.map fun x => x.2.labels).flatten := by
  have once := wellFormed.once
  rw [InstructionList.labels, InstructionList.labelGroups, List.flatten_append,
    List.nodup_append] at once
  exact ⟨once.1, fun label atEnd before => once.2.2 label before label (by simpa using atEnd) rfl⟩

theorem size_ofList (l : InstructionList) : (ofList l).size = l.length := by
  rw [← InstructionList.length_toList]
  rfl

/-- What is known of labels are their positions. -/
theorem labels_ofList {l : InstructionList} (wellFormed : l.WellFormed) (label : Label) :
    (ofList l).labels[label.id]? = l.position? label := by
  obtain ⟨once, apart⟩ := nodup_nodes wellFormed
  have nodes := represents_zipIdx represents_empty rfl 0 (by simpa using once)
  have all := nodes.mark (by simp) (by simpa using apart) l.toList.length label
  have places : List.range' 0 l.toList.length ++ [l.toList.length] =
      List.range (l.toList.length + 1) := by
    rw [← List.range_eq_range', List.range_succ]
  refine all.trans ?_
  rw [List.nil_append, List.nil_append, places]
  change (l.position? label).bind _ = l.position? label
  cases found : l.position? label with
  | none => rfl
  | some i =>
    have bound : i < l.labelGroups.length := (List.findIdx?_eq_some_iff_getElem.1 found).1
    rw [InstructionList.length_labelGroups, ← InstructionList.length_toList] at bound
    exact List.getElem?_range bound

end Positions

end ClassPatch
