import DagRider.Model.Vertex

set_option relaxedAutoImplicit false
set_option autoImplicit false

/-!
# What the accessors of a committee tell

Two committees with the same validators under the same ids are the same to every accessor: to those
that look an id up exactly, and to those that list the members up to the order of the table.

## Main definitions

* `DagRider.Committee.Same` — the same validators under the same ids.

## Main results

* `DagRider.Committee.Same.agree` — all accessors agree.
-/

namespace DagRider

namespace Committee

variable {c c' : Committee} {id : Id}

/-- The same validators under the same ids, in whatever order. -/
def Same (c c' : Committee) : Prop := ∀ id, c'.validators.find? id = c.validators.find? id

/-- The tables have the same entries. -/
lemma Same.perm (h : c.Same c') : c'.validators.entries.Perm c.validators.entries := by
  have hnodup : ∀ c : Committee, c.validators.entries.Nodup := fun c =>
    List.Nodup.of_map _ c.validators.nodup
  refine (List.perm_ext_iff_of_nodup (hnodup c') (hnodup c)).mpr fun e => ?_
  obtain ⟨id, v⟩ := e
  rw [← UnorderedMap.find?_eq_some_iff, ← UnorderedMap.find?_eq_some_iff, h id]

/-- Lists of a field of the members agree up to their order. -/
lemma Same.values (h : c.Same c') {α : Type} (field : Validator → α) :
    (c'.validators.values.map field).Perm (c.validators.values.map field) :=
  (h.perm.map Prod.snd).map field

/-- A field that is looked up is the same. -/
lemma Same.ofMember (h : c.Same c') {α : Type} (field : Validator → α) (none : α) :
    c'.ofMember field none = c.ofMember field none := by
  funext id
  unfold Committee.ofMember
  rw [h id]

/-- The accessors of two committees agree: those by id exactly, those of all members up to the
order. -/
structure Agree (c c' : Committee) : Prop where
  size : c'.size = c.size
  quorumThreshold : c'.quorumThreshold = c.quorumThreshold
  nodeAddress : c'.getNodeAddress = c.getNodeAddress
  nodeAddresses : c'.getNodeAddresses.Perm c.getNodeAddresses
  txReceiverAddress : c'.getTxReceiverAddress = c.getTxReceiverAddress
  txReceiverAddresses : c'.getTxReceiverAddresses.Perm c.getTxReceiverAddresses
  blockReceiverAddress : c'.getBlockReceiverAddress = c.getBlockReceiverAddress
  blockReceiverAddresses : c'.getBlockReceiverAddresses.Perm c.getBlockReceiverAddresses
  nodeAddressesButMe : ∀ id, (c'.getNodeAddressesButMe id).Perm (c.getNodeAddressesButMe id)
  nodesKeys : c'.getNodesKeys.Perm c.getNodesKeys
  nodeKey : c'.getNodeKey = c.getNodeKey

/-- **No accessor tells two committees apart** that have the same validators under the same ids. -/
theorem Same.agree (h : c.Same c') : c.Agree c' where
  size := h.perm.length_eq
  quorumThreshold := by
    have hsize : c'.validators.size = c.validators.size := h.perm.length_eq
    unfold Committee.quorumThreshold
    rw [hsize]
  nodeAddress := h.ofMember _ _
  nodeAddresses := h.values _
  txReceiverAddress := h.ofMember _ _
  txReceiverAddresses := h.values _
  blockReceiverAddress := h.ofMember _ _
  blockReceiverAddresses := h.values _
  nodeAddressesButMe id := (h.perm.filter _).map _
  nodesKeys := h.values _
  nodeKey := h.ofMember _ _

end Committee

end DagRider
