import Raveil.Tiling.Denotation

/-! The recursive, memoised reference finds the value of every node before the store. -/
namespace Raveil.Tiling
open Raveil.Lib Raveil.Graph

variable {grid : Grid} {mode : Boundary} {nodes ns : List Node} {row col : ℤ} {fuel k : ℕ} {memo memo' : Memo}
  {identity : String}

/-- What a load finds from a cell of the grid. -/
def cellLoad (grid : Grid) (mode : Boundary) (row col : ℤ) (r c : ℤ) : ℕ := wordAt grid mode (row + r) (col + c)

theorem cellLoad_lt (r c : ℤ) : cellLoad grid mode row col r c < 2 ^ 32 := wordAt_lt

/-- From every sound memo an operand gets the value that its node denotes, and leaves a sound memo. -/
def Finds (nodes : List Node) (load : ℤ → ℤ → ℕ) (operand : Memo → String → Except String (ℕ × Memo))
    (identity : String) : Prop :=
  ∀ memo, Sound nodes load memo → ∃ w memo', operand memo identity = .ok (w, memo') ∧
    Denotes nodes load identity w ∧ Sound nodes load memo'

theorem nodeOf_eq_some {node : Node} (hnodup : (nodes.map Node.id).Nodup) (h : node ∈ nodes) :
    nodeOf nodes node.id = some node := by
  unfold nodeOf
  cases hfind : nodes.reverse.find? fun other => other.id = node.id with
  | none =>
    have := List.find?_eq_none.mp hfind node (List.mem_reverse.mpr h)
    simp at this
  | some other =>
    have hid : other.id = node.id := by simpa using List.find?_some hfind
    have hother : other ∈ nodes := List.mem_reverse.mp (List.mem_of_find?_eq_some hfind)
    rw [List.inj_on_of_nodup_map hnodup hother h hid]

theorem toNat_emod {w : ℕ} (h : w < 2 ^ 32) : ((w : ℤ) % 2 ^ 32).toNat = w := by
  rw [Int.emod_eq_of_lt (by omega) (by omega), Int.toNat_natCast]

theorem binaryWord_eq (op : Binary) {a b : ℕ} (ha : a < 2 ^ 32) (hb : b < 2 ^ 32) :
    ((match op with
      | .add => (a : ℤ) + b
      | .mul => (a : ℤ) * b
      | .max => max (a : ℤ) b) % 2 ^ 32).toNat = binaryWord op [a, b] := by
  cases op with
  | add =>
    change (((a : ℤ) + b) % 2 ^ 32).toNat = (a + (b + 0)) % 2 ^ 32
    omega
  | mul =>
    change (((a : ℤ) * b) % 2 ^ 32).toNat = a * b % 2 ^ 32
    rw [← Nat.cast_mul]
    omega
  | max =>
    change ((max (a : ℤ) b) % 2 ^ 32).toNat = max (max 0 a) b
    omega

theorem immediateWord_eq (op : Immediate) (a : ℕ) (v : ℤ) :
    ((match op with
      | .add => (a : ℤ) + v
      | .ge => if (a : ℤ) ≥ v then 1 else 0) % 2 ^ 32).toNat = immediateWord op a v := by
  cases op with
  | add => rfl
  | ge =>
    dsimp only [immediateWord]
    split <;> rfl

/-- A node whose operands are found gets the value that it denotes. -/
theorem compute_finds {schema : Schema} {node : Node} {operand : Memo → String → Except String (ℕ × Memo)}
    (hv1 : schema ≠ .v1) (hok : NodeOk schema node) (hstore : node.op ≠ .store) (hmem : node ∈ nodes)
    (hdeps : ∀ y ∈ dependencies node, Finds nodes (cellLoad grid mode row col) operand y)
    (h : Sound nodes (cellLoad grid mode row col) memo) :
    ∃ v memo', compute grid mode row col operand memo node = .ok (v, memo') ∧
      Denotes nodes (cellLoad grid mode row col) node.id (v % 2 ^ 32).toNat ∧
      Sound nodes (cellLoad grid mode row col) memo' := by
  cases hok with
  | selector id name hv => exact absurd hv hv1
  | relative id r c hv hr hc =>
    refine ⟨_, memo, except_bind_eq_ok.mpr ⟨_, referenceLoad_eq, rfl⟩, ?_, h⟩
    rw [toNat_emod wordAt_lt]
    exact .load hmem
  | binary id op y z hv =>
    obtain ⟨a, m₁, ha, hda, h₁⟩ := hdeps y (by simp [dependencies]) memo h
    obtain ⟨b, m₂, hb, hdb, h₂⟩ := hdeps z (by simp [dependencies]) m₁ h₁
    refine ⟨_, m₂, except_bind_eq_ok.mpr ⟨_, ha, except_bind_eq_ok.mpr ⟨_, hb, rfl⟩⟩, ?_, h₂⟩
    have hd := Denotes.binary hmem hda hdb
    rw [← binaryWord_eq op (hda.lt cellLoad_lt) (hdb.lt cellLoad_lt)] at hd
    exact hd
  | immediate id op y v hv hg h0 hm =>
    obtain ⟨a, m₁, ha, hda, h₁⟩ := hdeps y (by simp [dependencies]) memo h
    refine ⟨_, m₁, except_bind_eq_ok.mpr ⟨_, ha, rfl⟩, ?_, h₁⟩
    have hd := Denotes.immediate hmem hda
    rw [← immediateWord_eq] at hd
    exact hd
  | store id y => exact absurd rfl hstore

theorem evaluate_finds {schema : Schema} {node : Node} (hnodup : (nodes.map Node.id).Nodup)
    (hv1 : schema ≠ .v1) (hok : NodeOk schema node) (hstore : node.op ≠ .store) (hmem : node ∈ nodes)
    (hdeps : ∀ y ∈ dependencies node,
      Finds nodes (cellLoad grid mode row col) (evaluate grid mode nodes row col fuel) y) :
    Finds nodes (cellLoad grid mode row col) (evaluate grid mode nodes row col (fuel + 1)) node.id := by
  intro memo h
  rw [evaluate]
  cases hm : memo node.id with
  | some w => exact ⟨w, memo, rfl, h _ w hm, h⟩
  | none =>
    obtain ⟨v, memo', hc, hd, hs⟩ := compute_finds hv1 hok hstore hmem hdeps h
    dsimp only
    rw [nodeOf_eq_some hnodup hmem]
    exact ⟨_, _, except_bind_eq_ok.mpr ⟨_, hc, rfl⟩, hd, hs.update hd⟩

/-- Along an order that respects the dependencies, the depth of the recursion is at most the position. -/
theorem ordered_finds {schema : Schema} {seen : Finset String} (hnodup : (nodes.map Node.id).Nodup)
    (hv1 : schema ≠ .v1) (hord : Ordered Node.id dependencies seen ns) (hok : ∀ n ∈ ns, NodeOk schema n)
    (hstore : ∀ n ∈ ns, n.op ≠ .store) (hmem : ∀ n ∈ ns, n ∈ nodes)
    (hseen : ∀ y ∈ seen, ∀ fuel ≥ k,
      Finds nodes (cellLoad grid mode row col) (evaluate grid mode nodes row col fuel) y) :
    ∀ y ∈ seen ∪ (ns.map Node.id).toFinset, ∀ fuel ≥ k + ns.length,
      Finds nodes (cellLoad grid mode row col) (evaluate grid mode nodes row col fuel) y := by
  induction ns generalizing seen k with
  | nil =>
    intro y hy fuel hfuel
    exact hseen y (by simpa using hy) fuel hfuel
  | cons n ns ih =>
    obtain ⟨-, hdeps, hord⟩ := hord
    have hnext : ∀ y ∈ insert n.id seen, ∀ fuel ≥ k + 1,
        Finds nodes (cellLoad grid mode row col) (evaluate grid mode nodes row col fuel) y := by
      intro y hy fuel hfuel
      rcases Finset.mem_insert.mp hy with rfl | hy
      · obtain ⟨fuel, rfl⟩ : ∃ f, fuel = f + 1 := ⟨fuel - 1, by omega⟩
        apply evaluate_finds hnodup hv1 (hok n List.mem_cons_self) (hstore n List.mem_cons_self)
          (hmem n List.mem_cons_self)
        intro z hz
        exact hseen z (hdeps z hz) fuel (by omega)
      · exact hseen y hy fuel (by omega)
    intro y hy fuel hfuel
    apply ih hord (fun m hm => hok m (List.mem_cons_of_mem n hm)) (fun m hm => hstore m (List.mem_cons_of_mem n hm))
      (fun m hm => hmem m (List.mem_cons_of_mem n hm)) hnext y
    · simp only [List.map_cons, List.toFinset_cons, Finset.mem_union, Finset.mem_insert] at hy ⊢
      tauto
    · rw [List.length_cons] at hfuel
      omega

section Admitted

variable {value : Descriptor} {body : List Node} {id x : String} {sha256 : List UInt8 → Digest}

/-- At every cell of the plane the reference finds what the stored node denotes there. -/
theorem reference_finds (h : Valid value body id x) (hv1 : value.schema ≠ .v1) (hfuel : value.nodes.length ≤ fuel) :
    ∃ w memo', evaluate grid mode value.nodes row col fuel (fun _ => none) x = .ok (w, memo') ∧
      Denotes value.nodes (cellLoad grid mode row col) x w := by
  obtain ⟨hord, hlast⟩ := ordered_append.mp h.ordered
  have hmem : ∀ n ∈ body, n ∈ value.nodes := fun n hn => h.perm.mem_iff.mp (List.mem_append_left _ hn)
  have hlen : body.length + 1 = value.nodes.length := by
    have := h.perm.length_eq
    rwa [List.length_append, List.length_singleton] at this
  have hfinds := @ordered_finds grid mode value.nodes body row col 0 value.schema ∅ h.nodup hv1 hord
    (fun n hn => h.ok n (hmem n hn)) h.values hmem (by simp) x (hlast.2.1 x (by simp [dependencies])) fuel (by omega)
  obtain ⟨w, memo', hev, hd, -⟩ := hfinds (fun _ => none) fun _ _ hnone => absurd hnone (by simp)
  exact ⟨w, memo', hev, hd⟩

/-- The store stands last in an admitted descriptor. -/
theorem last_store (h : Valid value body id x) (hv : validateDescriptor value = .ok ()) :
    value.nodes.getLast?.bind inputOf = some x := by
  unfold validateDescriptor at hv
  obtain ⟨-, hv⟩ := require_then_eq_ok.mp hv
  obtain ⟨-, hv⟩ := require_then_eq_ok.mp hv
  obtain ⟨-, hv⟩ := require_then_eq_ok.mp hv
  obtain ⟨⟨seen, stores⟩, -, hv⟩ := except_bind_eq_ok.mp hv
  obtain ⟨⟨-, hlast⟩, -⟩ := require_then_eq_ok.mp hv
  obtain ⟨z, hz, hop⟩ := Option.map_eq_some_iff.mp hlast
  have hmem : z ∈ body ++ [Node.mk id (.store x)] := h.perm.mem_iff.mpr (List.mem_of_getLast? hz)
  rcases List.mem_append.mp hmem with hb | hb
  · exact absurd hop (h.values z hb)
  · rw [List.mem_singleton.mp hb] at hz
    rw [hz]
    rfl

end Admitted

end Raveil.Tiling
