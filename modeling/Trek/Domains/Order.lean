/-
# The order of the nodes

`orderNodes` runs the greedy topological order of the nodes in file order: what it has not ordered is the nodes left, each
with its dependencies among them (`pending`), and the id it takes is that of the first node that has none. So it fails
exactly where the dependencies have a cycle, and else returns the topological order whose nodes come first in the file
(`orderNodes_spec`).
-/
import Trek.Domains.Archon
import Trek.Lib.TopoOrder

namespace Trek.Domains

/-- A node depends on another. -/
def DependsOn (nodes : List ArchonNode) (a b : ArchonNode) : Prop := a ∈ nodes ∧ b ∈ nodes ∧ b.id ∈ a.dependsOn

/-- The dependencies of the nodes have a cycle, or a node that depends on itself. -/
def HasCycle (nodes : List ArchonNode) : Prop := ∃ a, Relation.TransGen (DependsOn nodes) a a

/-- The place of a node in the file. -/
def positionIn (nodes : List ArchonNode) (node : ArchonNode) : ℕ := (nodes.map (·.id)).idxOf node.id

/-- Nodes with different ids that are not empty, and with dependencies among them. -/
structure WellFormed (nodes : List ArchonNode) : Prop where
  nodup : (nodes.map (·.id)).Nodup
  nonempty : ∀ node ∈ nodes, node.id ≠ ""
  known : ∀ node ∈ nodes, ∀ dep ∈ node.dependsOn, dep ∈ nodes.map (·.id)

/-! ### The maps -/

theorem pairs_mapOf {ν : Type*} {pairs : List (String × ν)} (h : (pairs.map Prod.fst).Nodup) : (mapOf pairs).pairs = pairs := by
  have hfold : ∀ (pairs : List (String × ν)) (m : OrdMap String ν), ((m.pairs ++ pairs).map Prod.fst).Nodup →
      (pairs.foldl (fun m p => m.set p.1 p.2) m).pairs = m.pairs ++ pairs := by
    intro pairs
    induction pairs with
    | nil => exact fun m _ => (List.append_nil _).symm
    | cons p pairs ih =>
      intro m hnodup
      have hnew : p.1 ∉ m.keys := by
        intro hin
        rw [List.map_append, List.map_cons] at hnodup
        exact (List.nodup_append.mp hnodup).2.2 p.1 hin p.1 List.mem_cons_self rfl
      have hpairs := OrdMap.pairs_set_new p.2 hnew
      rw [List.foldl_cons, ih _ (by rw [hpairs, List.append_assoc]; exact hnodup), hpairs, List.append_assoc]
      rfl
  exact hfold pairs OrdMap.empty h

theorem get?_mapOf {ν : Type*} {pairs : List (String × ν)} (h : (pairs.map Prod.fst).Nodup) {k : String} {v : ν}
    (hmem : (k, v) ∈ pairs) : (mapOf pairs).get? k = some v := by
  rw [OrdMap.get?_eq_some, pairs_mapOf h]
  exact hmem

theorem positionIn_getElem {nodes : List ArchonNode} (h : (nodes.map (·.id)).Nodup) {i : ℕ} (hi : i < nodes.length) :
    positionIn nodes nodes[i] = i := by
  have hlt : i < (nodes.map (·.id)).length := by simpa using hi
  have hget : nodes[i].id = (nodes.map (·.id))[i] := (List.getElem_map _).symm
  unfold positionIn
  rw [hget]
  exact h.idxOf_getElem i _

theorem positionIn_lt {nodes : List ArchonNode} (h : (nodes.map (·.id)).Nodup) :
    nodes.Pairwise fun a b => positionIn nodes a < positionIn nodes b := by
  rw [List.pairwise_iff_getElem]
  intro i j hi hj hij
  rw [positionIn_getElem h hi, positionIn_getElem h hj]
  exact hij

theorem get?_index {nodes : List ArchonNode} (h : WellFormed nodes) {node : ArchonNode} (hnode : node ∈ nodes) :
    (mapOf (nodes.zipIdx.map fun p => (p.1.id, p.2))).get? node.id = some (positionIn nodes node) := by
  have hkeys : (nodes.zipIdx.map fun p => (p.1.id, p.2)).map Prod.fst = nodes.map (·.id) := by
    rw [List.map_map]
    have hfst : (Prod.fst ∘ fun p : ArchonNode × ℕ => (p.1.id, p.2)) = (·.id) ∘ Prod.fst := rfl
    rw [hfst, ← List.map_map, List.zipIdx_map_fst]
  apply get?_mapOf (hkeys ▸ h.nodup)
  obtain ⟨i, hi, rfl⟩ := List.getElem_of_mem hnode
  rw [List.mem_map]
  refine ⟨(nodes[i], i), ?_, by rw [positionIn_getElem h.nodup hi]⟩
  rw [List.mem_zipIdx_iff_getElem?, List.getElem?_eq_getElem hi]

/-! ### What is left -/

/-- The nodes that are not ordered yet, with their dependencies among them. -/
def pending (left : List ArchonNode) : List (String × List String) :=
  left.map fun node => (node.id, node.dependsOn.filter (· ∈ left.map (·.id)))

/-- A node that depends on none of those left. -/
def isReady (left : List ArchonNode) (node : ArchonNode) : Bool := (node.dependsOn.filter (· ∈ left.map (·.id))).isEmpty

theorem isReady_iff {nodes left : List ArchonNode} {node : ArchonNode} (hleft : left.Sublist nodes) (hnode : node ∈ nodes) :
    isReady left node = true ↔ ∀ b ∈ left, ¬DependsOn nodes node b := by
  unfold isReady
  rw [List.isEmpty_iff, List.filter_eq_nil_iff]
  constructor
  · intro h b hb hdep
    exact h b.id hdep.2.2 (decide_eq_true (List.mem_map_of_mem hb))
  · intro h dep hdep hin
    obtain ⟨b, hb, rfl⟩ := List.mem_map.mp (of_decide_eq_true hin)
    exact h b hb ⟨hnode, hleft.subset hb, hdep⟩

theorem readyIds_pending {nodes left : List ArchonNode} (h : WellFormed nodes) (hleft : left.Sublist nodes) :
    readyIds (mapOf (nodes.zipIdx.map fun p => (p.1.id, p.2))) (pending left) = (left.filter (isReady left)).map (·.id) := by
  have hfilter : ((pending left).filter (·.2.isEmpty)).map (·.1) = (left.filter (isReady left)).map (·.id) := by
    unfold pending
    rw [List.filter_map, List.map_map]
    rfl
  unfold readyIds
  rw [hfilter]
  apply List.mergeSort_of_pairwise
  rw [List.pairwise_map]
  have hsub : (left.filter (isReady left)).Sublist nodes := List.filter_sublist.trans hleft
  refine (List.Pairwise.sublist hsub (positionIn_lt h.nodup)).imp_of_mem fun {a b} ha hb hab => ?_
  rw [get?_index h (hsub.subset ha), get?_index h (hsub.subset hb)]
  simpa using Nat.le_of_lt hab

theorem pending_next {nodes before after : List ArchonNode} {node : ArchonNode} (h : WellFormed nodes)
    (hleft : (before ++ node :: after).Sublist nodes) :
    ((pending (before ++ node :: after)).filter (·.1 ≠ node.id)).map (fun p => (p.1, p.2.filter (· ≠ node.id))) =
      pending (before ++ after) := by
  have hnodup : ((before ++ node :: after).map (·.id)).Nodup := h.nodup.sublist (hleft.map _)
  have hnot : ∀ b ∈ before ++ after, b.id ≠ node.id := by
    intro b hb he
    rw [List.map_append, List.map_cons, List.nodup_middle] at hnodup
    apply (List.nodup_cons.mp hnodup).1
    rw [← List.map_append, ← he]
    exact List.mem_map_of_mem hb
  have hfilter : (before ++ node :: after).filter (fun b => b.id ≠ node.id) = before ++ after := by
    rw [List.filter_append, List.filter_cons_of_neg (by simp), ← List.filter_append, List.filter_eq_self]
    exact fun b hb => decide_eq_true (hnot b hb)
  unfold pending
  rw [List.filter_map, List.map_map]
  have hcomp : ((fun p : String × List String => decide (p.1 ≠ node.id)) ∘ fun b : ArchonNode =>
      (b.id, b.dependsOn.filter (· ∈ (before ++ node :: after).map (·.id)))) = fun b => decide (b.id ≠ node.id) := rfl
  rw [hcomp, hfilter]
  apply List.map_congr_left
  intro b _
  dsimp only [Function.comp_apply]
  rw [List.filter_filter]
  congr 1
  apply List.filter_congr
  intro dep _
  by_cases hdep : dep = node.id
  · subst hdep
    have hout : decide (node.id ∈ (before ++ after).map (·.id)) = false := by
      apply decide_eq_false
      intro hin
      obtain ⟨b, hb, he⟩ := List.mem_map.mp hin
      exact hnot b hb he
    rw [hout]
    simp
  · simp [hdep, List.mem_append, List.mem_cons]

/-! ### The loop -/

/-- The loop takes the greedy order of the nodes left, or stops at nodes that all depend on others of them. -/
theorem orderLoop_cases {nodes : List ArchonNode} (h : WellFormed nodes) : ∀ (n : ℕ) {left : List ArchonNode}
    (ordered : List ArchonNode), left.length = n → left.Sublist nodes →
    (∃ l, Greedy (DependsOn nodes) left l ∧
      orderLoop (mapOf (nodes.map fun node => (node.id, node))) (mapOf (nodes.zipIdx.map fun p => (p.1.id, p.2))) n
        (pending left) ordered = .ok (ordered ++ l)) ∨
    ((∃ stuck, stuck ≠ [] ∧ ∀ a ∈ stuck, ∃ b ∈ stuck, DependsOn nodes a b) ∧
      orderLoop (mapOf (nodes.map fun node => (node.id, node))) (mapOf (nodes.zipIdx.map fun p => (p.1.id, p.2))) n
        (pending left) ordered = .error "workflow has a cycle")
  | 0, left, ordered, hlen, _ => by
    obtain rfl := List.eq_nil_of_length_eq_zero hlen
    exact .inl ⟨[], .nil, by simp [orderLoop]⟩
  | n + 1, left, ordered, hlen, hleft => by
    have hids := readyIds_pending h hleft
    unfold orderLoop
    rw [hids]
    cases hready : left.filter (isReady left) with
    | nil =>
      right
      rw [List.filter_eq_nil_iff] at hready
      refine ⟨⟨left, ?_, fun a ha => ?_⟩, rfl⟩
      · rintro rfl
        cases hlen
      · have hnot := hready a ha
        rw [isReady_iff hleft (hleft.subset ha)] at hnot
        push Not at hnot
        exact hnot
    | cons node ready =>
      obtain ⟨before, after, rfl, hbefore, hnode, -⟩ := List.filter_eq_cons_iff.mp hready
      have hin : node ∈ nodes := hleft.subset (List.mem_append_right _ List.mem_cons_self)
      have hget : (mapOf (nodes.map fun node => (node.id, node))).get? node.id = some node := by
        apply get?_mapOf
        · rw [List.map_map]
          exact h.nodup
        · exact List.mem_map_of_mem (f := fun node : ArchonNode => (node.id, node)) hin
      have hrest : (before ++ after).Sublist nodes :=
        ((List.sublist_cons_self node after).append_left before).trans hleft
      have hlen' : (before ++ after).length = n := by
        simp only [List.length_append, List.length_cons] at hlen ⊢
        omega
      rw [isReady_iff hleft hin] at hnode
      have hdepends : ∀ c ∈ before, ∃ b ∈ before ++ node :: after, DependsOn nodes c b := by
        intro c hc
        have hnot := hbefore c hc
        rw [isReady_iff hleft (hleft.subset (List.mem_append_left _ hc))] at hnot
        push Not at hnot
        exact hnot
      rw [List.map_cons]
      simp only [h.nonempty node hin, ↓reduceIte, hget, pending_next h hleft]
      rcases orderLoop_cases h n (ordered ++ [node]) hlen' hrest with ⟨l, hl, hok⟩ | ⟨hstuck, herror⟩
      · refine .inl ⟨node :: l, .next hnode hdepends hl, ?_⟩
        rw [hok, List.append_assoc]
        rfl
      · exact .inr ⟨hstuck, herror⟩

theorem orderNodes_cases {nodes : List ArchonNode} (h : WellFormed nodes) :
    (∃ l, Greedy (DependsOn nodes) nodes l ∧ orderNodes nodes = .ok l) ∨
      (HasCycle nodes ∧ ∃ e, orderNodes nodes = .error e) := by
  have hpending : (mapOf (nodes.map fun node => (node.id, node.dependsOn))).pairs = pending nodes := by
    rw [pairs_mapOf (by rw [List.map_map]; exact h.nodup)]
    apply List.map_congr_left
    intro node hnode
    have hall : node.dependsOn.filter (· ∈ nodes.map (·.id)) = node.dependsOn :=
      List.filter_eq_self.mpr fun dep hdep => decide_eq_true (h.known node hnode dep hdep)
    rw [hall]
  unfold orderNodes
  rw [hpending]
  rcases orderLoop_cases h nodes.length [] rfl (.refl nodes) with ⟨l, hl, hok⟩ | ⟨⟨stuck, hne, hstuck⟩, herror⟩
  · exact .inl ⟨l, hl, hok⟩
  · obtain ⟨a, -, ha⟩ := exists_cycle hne hstuck
    exact .inr ⟨⟨a, ha⟩, _, herror⟩

/-- The order it returns is a topological one. -/
theorem isTopoOrder_of_orderNodes {nodes ordered : List ArchonNode} (h : WellFormed nodes)
    (hordered : orderNodes nodes = .ok ordered) : IsTopoOrder (DependsOn nodes) nodes ordered := by
  rcases orderNodes_cases h with ⟨l, hl, hok⟩ | ⟨-, e, herror⟩
  · obtain rfl := Except.ok.inj (hok.symm.trans hordered)
    exact hl.isTopoOrder
  · cases herror.symm.trans hordered

/-- `orderNodes` fails exactly where the dependencies have a cycle. Else it returns a topological order of the nodes, and no
other one has the positions of its nodes before it. -/
theorem orderNodes_spec {nodes : List ArchonNode} (h : WellFormed nodes) :
    ((∃ e, orderNodes nodes = .error e) ↔ HasCycle nodes) ∧
      ∀ ordered, orderNodes nodes = .ok ordered → IsTopoOrder (DependsOn nodes) nodes ordered ∧
        ∀ other, IsTopoOrder (DependsOn nodes) nodes other →
          ¬other.map (positionIn nodes) < ordered.map (positionIn nodes) := by
  have hR : ∀ a b, DependsOn nodes a b → a ∈ nodes ∧ b ∈ nodes := fun a b hab => ⟨hab.1, hab.2.1⟩
  rcases orderNodes_cases h with ⟨l, hl, hok⟩ | ⟨hcycle, e, herror⟩
  · rw [hok]
    refine ⟨iff_of_false ?_ ?_, ?_⟩
    · rintro ⟨e, he⟩
      cases he
    · rintro ⟨a, ha⟩
      exact hl.isTopoOrder.not_cycle hR a ha
    · intro ordered hordered
      obtain rfl := Except.ok.inj hordered
      exact ⟨hl.isTopoOrder, fun other hother => hl.not_lt (positionIn_lt h.nodup) hother⟩
  · rw [herror]
    refine ⟨iff_of_true ⟨e, rfl⟩ hcycle, ?_⟩
    intro ordered hordered
    cases hordered

/-- A node that stands before the one it depends on. -/
def twoNodes : List ArchonNode :=
  [⟨"test", .bash, "npm test", ["build"], none, none⟩, ⟨"build", .bash, "npm run build", [], none, none⟩]

theorem orderNodes_twoNodes : WellFormed twoNodes ∧ ((∃ e, orderNodes twoNodes = .error e) ↔ HasCycle twoNodes) ∧
    ∀ ordered, orderNodes twoNodes = .ok ordered → IsTopoOrder (DependsOn twoNodes) twoNodes ordered ∧
      ∀ other, IsTopoOrder (DependsOn twoNodes) twoNodes other →
        ¬other.map (positionIn twoNodes) < ordered.map (positionIn twoNodes) :=
  have h : WellFormed twoNodes := ⟨by decide, by decide, by decide⟩
  ⟨h, orderNodes_spec h⟩

end Trek.Domains
