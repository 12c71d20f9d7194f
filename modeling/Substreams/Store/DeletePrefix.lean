import Mathlib.Data.Finmap
import Mathlib.Data.List.Sort
import Mathlib.Data.String.Basic
import Substreams.Block.Range

set_option autoImplicit false

/-! # Deleting a prefix from a store

`baseStore.DeletePrefix(ord, prefix)` first bumps the store's ordinal to `ord`, then removes
from the store's map every key with the prefix, building one `DELETE` delta per key, and
appends those deltas to the store's deltas sorted by key. It ranges over a Go map, whose visit order the runtime chooses; deleting the entry being
visited does not change which entries the range visits, so the loop visits every entry of the
map as it was, once each, in some order (`VisitOrder`).

The outcome does not depend on that order (`deletePrefix_exact`): it panics as
`bumpOrdinal` does, and otherwise the store records the ordinal `bumpOrdinal` gives, the map
left is the map with the prefixed keys removed, and the deltas appended are the removed
entries, sorted by key. Reverse-applying them, as `storesHandleUndo` does on an undo, gives
back the map. A second `DeletePrefix` of the same prefix finds nothing left to delete and
only bumps the ordinal (`deletePrefix_deletePrefix`). Over a whole block of calls, with any
prefixes and visit orders, the undo of the deltas they append gives back the map the block
started from (`deletePrefixAll_undo`).

`ApplyDelta` and `ApplyDeltasReverse`, which `DeletePrefix` and `storesHandleUndo` call, are
not in the source: they are the fields of `DeltaOps`, with the laws the two callers rely on.
`bumpOrdinal` is not in the source either: it is a parameter, from the store's last ordinal
and `ord` to the ordinal the store records, or a panic.
-/

namespace Substreams.Store

open Substreams.Block

/-- `pbssinternal.StoreDelta_Operation`. -/
inductive Operation
  | unset
  | create
  | update
  | delete
deriving DecidableEq, Repr

/-- `pbssinternal.StoreDelta`, over values of type `V`; a `nil` value is `none`. -/
structure StoreDelta (V : Type) where
  operation : Operation
  ordinal : Nat
  key : String
  oldValue : Option V
  newValue : Option V
deriving DecidableEq, Repr

/-- A store's map, a `map[string][]byte` with values of type `V`. -/
abbrev KV (V : Type) := Finmap fun _ : String => V

/-- `baseStore`, with the fields `DeletePrefix` reads and writes: the map, the deltas, and the
last ordinal `bumpOrdinal` records. -/
@[ext]
structure BaseStore (V : Type) where
  kv : KV V
  deltas : List (StoreDelta V)
  lastOrdinal : Nat

/-- `ApplyDelta` and `ApplyDeltasReverse`, with what their callers rely on: a `DELETE` delta
removes its key, and reverse-applying takes the deltas from the last to the first and puts
each `DELETE`'s old value back. -/
structure DeltaOps (V : Type) where
  applyDelta : KV V → StoreDelta V → KV V
  applyDeltasReverse : KV V → List (StoreDelta V) → KV V
  applyDelta_delete : ∀ kv d, d.operation = .delete → applyDelta kv d = kv.erase d.key
  applyDeltasReverse_nil : ∀ kv, applyDeltasReverse kv [] = kv
  applyDeltasReverse_delete : ∀ kv ds d v, d.operation = .delete → d.oldValue = some v →
    applyDeltasReverse kv (ds ++ [d]) = applyDeltasReverse (kv.insert d.key v) ds

/-- Undoing one delta: a `CREATE` removes its key, the others put the old value back. -/
def undoDelta {V : Type} (kv : KV V) (d : StoreDelta V) : KV V :=
  match d.operation, d.oldValue with
  | .create, _ => kv.erase d.key
  | _, some v => kv.insert d.key v
  | _, none => kv.erase d.key

/-- One implementation with these laws, by the operation of each delta: `CREATE` and `UPDATE`
set the new value and `DELETE` removes the key; reversed, `undoDelta` from the last delta to
the first. -/
def DeltaOps.byOperation (V : Type) : DeltaOps V where
  applyDelta kv d :=
    match d.operation, d.newValue with
    | .delete, _ => kv.erase d.key
    | _, some v => kv.insert d.key v
    | _, none => kv.erase d.key
  applyDeltasReverse kv ds := ds.foldr (fun d kv => undoDelta kv d) kv
  applyDelta_delete kv d h := by simp only [h]
  applyDeltasReverse_nil _ := rfl
  applyDeltasReverse_delete kv ds d v h hv := by simp [undoDelta, h, hv]

/-- An order in which `for key, val := range kv` visits the map: every entry once. -/
structure VisitOrder {V : Type} (kv : KV V) where
  entries : List (Σ _ : String, V)
  perm : (entries : Multiset (Σ _ : String, V)) = kv.entries

/-- `strings.HasPrefix(key, prefix)`, on the characters: for UTF-8 strings a prefix of the
bytes is a prefix of the characters. -/
def hasPrefix (key pfx : String) : Bool := pfx.data.isPrefixOf key.data

@[simp] theorem hasPrefix_eq_true {key pfx : String} : hasPrefix key pfx = true ↔ pfx.data <+: key.data :=
  List.isPrefixOf_iff_prefix

/-- The delta `DeletePrefix` builds for an entry. -/
def deleteDelta {V : Type} (ord : Nat) (e : Σ _ : String, V) : StoreDelta V :=
  ⟨.delete, ord, e.1, some e.2, none⟩

/-- `sort.Slice(deltas, func(i, j int) bool { return deltas[i].Key < deltas[j].Key })`, as an
insertion sort on the keys. The keys of a map are distinct, so every sort, stable or not,
orders its deltas the same way (`sortByKey_eq_of_perm`). -/
def sortByKey {V : Type} (deltas : List (StoreDelta V)) : List (StoreDelta V) :=
  deltas.insertionSort fun a b => a.key ≤ b.key

section

variable {V : Type} (ops : DeltaOps V) (bumpOrdinal : Nat → Nat → Except Panic Nat)

/-- The loop of `DeletePrefix` over the entries in visit order: an entry whose key has the
prefix gets a `DELETE` delta, which is applied to the map at once and collected. -/
def deletePrefixLoop (ord : Nat) (pfx : String) :
    List (Σ _ : String, V) → KV V → List (StoreDelta V) → KV V × List (StoreDelta V)
  | [], kv, deltas => (kv, deltas)
  | e :: rest, kv, deltas =>
      if !hasPrefix e.1 pfx then deletePrefixLoop ord pfx rest kv deltas
      else
        deletePrefixLoop ord pfx rest (ops.applyDelta kv (deleteDelta ord e))
          (deltas ++ [deleteDelta ord e])

/-- `DeletePrefix(ord, prefix)`, the map visited in the order `order`: `b.bumpOrdinal(ord)`,
then the loop, then the sorted deltas appended. -/
def BaseStore.deletePrefix (b : BaseStore V) (ord : Nat) (pfx : String) (order : VisitOrder b.kv) :
    Except Panic (BaseStore V) := do
  let lastOrdinal ← bumpOrdinal b.lastOrdinal ord
  let r := deletePrefixLoop ops ord pfx order.entries b.kv []
  pure ⟨r.1, b.deltas ++ sortByKey r.2, lastOrdinal⟩

/-- `storesHandleUndo(moduleOutput)`: the store of the output's module, if the store map has
one, gets the output's store deltas reverse-applied. Every `baseStore` is a `DeltaAccessor`. -/
def storesHandleUndo (storeMap : String → Option (BaseStore V)) (moduleName : String)
    (storeDeltas : List (StoreDelta V)) : String → Option (BaseStore V) :=
  match storeMap moduleName with
  | some s =>
      Function.update storeMap moduleName
        (some { s with kv := ops.applyDeltasReverse s.kv storeDeltas })
  | none => storeMap

/-! ## The loop -/

/-- The deltas the loop collects are those of the prefixed entries, in visit order. -/
theorem deletePrefixLoop_snd (ord : Nat) (pfx : String) :
    ∀ (order : List (Σ _ : String, V)) (kv : KV V) (deltas : List (StoreDelta V)),
      (deletePrefixLoop ops ord pfx order kv deltas).2 =
        deltas ++ (order.filter fun e => hasPrefix e.1 pfx).map (deleteDelta ord)
  | [], _, _ => by simp [deletePrefixLoop]
  | e :: rest, kv, deltas => by
      by_cases h : hasPrefix e.1 pfx <;>
        simp [deletePrefixLoop, h, List.filter_cons, deletePrefixLoop_snd ord pfx rest]

/-- The map the loop leaves is the map without the prefixed keys it visited. -/
theorem deletePrefixLoop_lookup (ord : Nat) (pfx k : String) :
    ∀ (order : List (Σ _ : String, V)) (kv : KV V) (deltas : List (StoreDelta V)),
      (deletePrefixLoop ops ord pfx order kv deltas).1.lookup k =
        if hasPrefix k pfx ∧ k ∈ order.keys then none else kv.lookup k
  | [], kv, _ => by simp [deletePrefixLoop]
  | e :: rest, kv, deltas => by
      by_cases h : hasPrefix e.1 pfx
      · simp only [deletePrefixLoop, h, Bool.not_true, Bool.false_eq_true, ↓reduceIte]
        rw [deletePrefixLoop_lookup, ops.applyDelta_delete _ _ rfl]
        rcases eq_or_ne k e.1 with rfl | hk <;> simp [deleteDelta, Finmap.lookup_erase_ne, *]
      · simp only [deletePrefixLoop, h, Bool.not_false, ↓reduceIte]
        rw [deletePrefixLoop_lookup]
        rcases eq_or_ne k e.1 with rfl | hk <;> simp [*]

/-! ## Visit orders -/

theorem VisitOrder.mem_keys {kv : KV V} (order : VisitOrder kv) {k : String} :
    k ∈ order.entries.keys ↔ k ∈ kv := by
  rw [Finmap.mem_def, ← order.perm, Multiset.coe_keys, Multiset.mem_coe]

theorem VisitOrder.lookup_of_mem {kv : KV V} (order : VisitOrder kv) {e : Σ _ : String, V}
    (he : e ∈ order.entries) : kv.lookup e.1 = some e.2 :=
  Finmap.lookup_eq_some_iff.mpr (order.perm ▸ Multiset.mem_coe.mpr he)

theorem VisitOrder.nodupKeys {kv : KV V} (order : VisitOrder kv) : order.entries.NodupKeys :=
  Multiset.coe_nodupKeys.mp (order.perm ▸ kv.nodupKeys)

/-- Two visit orders of a map visit the same entries. -/
theorem VisitOrder.perm_entries {kv : KV V} (order order' : VisitOrder kv) :
    order.entries.Perm order'.entries :=
  Multiset.coe_eq_coe.mp (order.perm.trans order'.perm.symm)

/-! ## Sorting by key -/

theorem sortByKey_perm (ds : List (StoreDelta V)) : (sortByKey ds).Perm ds :=
  List.perm_insertionSort _ ds

/-- With distinct keys, the sort leaves the keys strictly increasing. -/
theorem sortByKey_sorted {ds : List (StoreDelta V)} (h : (ds.map StoreDelta.key).Nodup) :
    (sortByKey ds).Sorted fun a b => a.key < b.key := by
  haveI : IsTotal (StoreDelta V) fun a b => a.key ≤ b.key := ⟨fun a b => le_total a.key b.key⟩
  haveI : IsTrans (StoreDelta V) fun a b => a.key ≤ b.key := ⟨fun _ _ _ => le_trans⟩
  have hne : (sortByKey ds).Pairwise fun a b => a.key ≠ b.key :=
    List.pairwise_map.mp (((sortByKey_perm ds).map StoreDelta.key).nodup_iff.mpr h)
  exact ((List.sorted_insertionSort _ ds).and hne).imp fun hab => lt_of_le_of_ne hab.1 hab.2

/-- With distinct keys, the sort does not depend on the order it starts from. -/
theorem sortByKey_eq_of_perm {ds ds' : List (StoreDelta V)} (hp : ds.Perm ds')
    (h : (ds.map StoreDelta.key).Nodup) : sortByKey ds = sortByKey ds' := by
  haveI : IsAntisymm (StoreDelta V) fun a b => a.key < b.key :=
    ⟨fun _ _ h₁ h₂ => absurd (h₁.trans h₂) (lt_irrefl _)⟩
  exact List.eq_of_perm_of_sorted (((sortByKey_perm ds).trans hp).trans (sortByKey_perm ds').symm)
    (sortByKey_sorted h) (sortByKey_sorted ((hp.map _).nodup_iff.mp h))

/-! ## Undo -/

/-- **Reverse-applying `DELETE` deltas restores their old values.** A map that agrees with
`orig` off the deltas' keys, with deltas whose old values are `orig`'s, comes back to `orig`. -/
theorem applyDeltasReverse_restores (orig : KV V) (ds : List (StoreDelta V))
    (hds : ∀ d ∈ ds, d.operation = .delete ∧ ∃ v, d.oldValue = some v ∧ orig.lookup d.key = some v) :
    ∀ (kv : KV V), (∀ k, k ∉ ds.map StoreDelta.key → kv.lookup k = orig.lookup k) →
      ops.applyDeltasReverse kv ds = orig := by
  induction ds using List.reverseRecOn with
  | nil =>
      intro kv hkv
      rw [ops.applyDeltasReverse_nil]
      exact Finmap.ext_lookup fun k => hkv k (List.not_mem_nil k)
  | append_singleton ds d ih =>
      intro kv hkv
      obtain ⟨hop, v, hv, horig⟩ := hds d (List.mem_append_right _ (List.mem_singleton_self d))
      rw [ops.applyDeltasReverse_delete _ _ _ _ hop hv]
      refine ih (fun d' hd' => hds d' (List.mem_append_left _ hd')) _ fun k hk => ?_
      by_cases hkd : k = d.key
      · rw [hkd, Finmap.lookup_insert, horig]
      · rw [Finmap.lookup_insert_of_ne _ hkd]
        exact hkv k (by simp [hk, hkd])

theorem storesHandleUndo_self {storeMap : String → Option (BaseStore V)}
    {moduleName : String} {s : BaseStore V} (h : storeMap moduleName = some s)
    (storeDeltas : List (StoreDelta V)) :
    storesHandleUndo ops storeMap moduleName storeDeltas moduleName =
      some { s with kv := ops.applyDeltasReverse s.kv storeDeltas } := by
  simp [storesHandleUndo, h]

/-! ## `DeletePrefix` -/

/-- The deltas `DeletePrefix` builds: one per prefixed entry, a `DELETE` at `ord` from the
entry's value to `nil`. -/
theorem VisitOrder.mem_removed {kv : KV V} (order : VisitOrder kv) {ord : Nat} {pfx : String}
    {d : StoreDelta V}
    (hd : d ∈ (order.entries.filter fun e => hasPrefix e.1 pfx).map (deleteDelta ord)) :
    d.operation = .delete ∧ d.ordinal = ord ∧ d.newValue = none ∧
      ∃ v, d.oldValue = some v ∧ kv.lookup d.key = some v := by
  obtain ⟨e, he, rfl⟩ := List.mem_map.mp hd
  exact ⟨rfl, rfl, rfl, e.2, rfl, order.lookup_of_mem (List.mem_filter.mp he).1⟩

theorem VisitOrder.removed_keys {kv : KV V} (order : VisitOrder kv) (ord : Nat) (pfx k : String) :
    k ∈ ((order.entries.filter fun e => hasPrefix e.1 pfx).map (deleteDelta ord)).map
        StoreDelta.key ↔ k ∈ kv ∧ pfx.data <+: k.data := by
  simp only [List.map_map, ← order.mem_keys, List.keys, List.mem_map, List.mem_filter,
    Function.comp_def, deleteDelta, hasPrefix_eq_true]
  constructor
  · rintro ⟨e, ⟨he, hp⟩, rfl⟩
    exact ⟨⟨e, he, rfl⟩, hp⟩
  · rintro ⟨⟨e, he, rfl⟩, hp⟩
    exact ⟨e, ⟨he, hp⟩, rfl⟩

theorem VisitOrder.removed_keys_nodup {kv : KV V} (order : VisitOrder kv) (ord : Nat)
    (pfx : String) :
    (((order.entries.filter fun e => hasPrefix e.1 pfx).map (deleteDelta ord)).map
      StoreDelta.key).Nodup := by
  rw [List.map_map]
  exact ((List.filter_sublist _).map Sigma.fst).nodup order.nodupKeys

theorem deletePrefix_ok {b b' : BaseStore V} {ord : Nat} {pfx : String} {order : VisitOrder b.kv} :
    b.deletePrefix ops bumpOrdinal ord pfx order = .ok b' ↔
      ∃ n, bumpOrdinal b.lastOrdinal ord = .ok n ∧
        b' = ⟨(deletePrefixLoop ops ord pfx order.entries b.kv []).1,
          b.deltas ++ sortByKey (deletePrefixLoop ops ord pfx order.entries b.kv []).2, n⟩ :=
  bind_eq_ok.trans (exists_congr fun _ => and_congr_right fun _ =>
    ⟨fun h => (Except.ok.inj h).symm, fun h => h ▸ rfl⟩)

/-- `DeletePrefix` panics exactly as `bumpOrdinal` does, before it reads the map. -/
theorem deletePrefix_error {b : BaseStore V} {ord : Nat} {pfx : String} {order : VisitOrder b.kv}
    {p : Panic} :
    b.deletePrefix ops bumpOrdinal ord pfx order = .error p ↔ bumpOrdinal b.lastOrdinal ord = .error p := by
  show (bumpOrdinal b.lastOrdinal ord >>= _) = _ ↔ _
  cases bumpOrdinal b.lastOrdinal ord <;> simp

theorem deletePrefix_ok_of_bump {b : BaseStore V} {ord n : Nat} (h : bumpOrdinal b.lastOrdinal ord = .ok n)
    (pfx : String) (order : VisitOrder b.kv) :
    ∃ b', b.deletePrefix ops bumpOrdinal ord pfx order = .ok b' ∧ b'.lastOrdinal = n :=
  ⟨_, (deletePrefix_ok ops bumpOrdinal).mpr ⟨n, h, rfl⟩, rfl⟩

section

variable {b b' : BaseStore V} {ord : Nat} {pfx : String} {order : VisitOrder b.kv}
  (h : b.deletePrefix ops bumpOrdinal ord pfx order = .ok b')

include h

theorem deletePrefix_lastOrdinal : bumpOrdinal b.lastOrdinal ord = .ok b'.lastOrdinal := by
  obtain ⟨n, hn, rfl⟩ := (deletePrefix_ok ops bumpOrdinal).mp h
  exact hn

theorem deletePrefix_lookup (k : String) :
    b'.kv.lookup k = if pfx.data <+: k.data then none else b.kv.lookup k := by
  obtain ⟨n, -, rfl⟩ := (deletePrefix_ok ops bumpOrdinal).mp h
  show (deletePrefixLoop ops ord pfx order.entries b.kv []).1.lookup k = _
  rw [deletePrefixLoop_lookup]
  by_cases hp : pfx.data <+: k.data
  · by_cases hk : k ∈ b.kv
    · simp [hp, order.mem_keys.mpr hk]
    · simp [hp, mt order.mem_keys.mp hk, Finmap.lookup_eq_none.mpr hk]
  · simp [hp]

theorem deletePrefix_deltas :
    b'.deltas =
      b.deltas ++ sortByKey ((order.entries.filter fun e => hasPrefix e.1 pfx).map (deleteDelta ord)) := by
  obtain ⟨n, -, rfl⟩ := (deletePrefix_ok ops bumpOrdinal).mp h
  show b.deltas ++ sortByKey (deletePrefixLoop ops ord pfx order.entries b.kv []).2 = _
  rw [deletePrefixLoop_snd, List.nil_append]

end

/-- With the same ordinal recorded, two visit orders leave the same store. -/
theorem deletePrefix_visitOrder (b : BaseStore V) (ord : Nat) (pfx : String)
    (order order' : VisitOrder b.kv) :
    b.deletePrefix ops bumpOrdinal ord pfx order' = b.deletePrefix ops bumpOrdinal ord pfx order := by
  cases hn : bumpOrdinal b.lastOrdinal ord with
  | error p => rw [(deletePrefix_error ops bumpOrdinal).mpr hn, (deletePrefix_error ops bumpOrdinal).mpr hn]
  | ok n =>
      obtain ⟨b₁, h₁, -⟩ := deletePrefix_ok_of_bump ops bumpOrdinal hn pfx order
      obtain ⟨b₂, h₂, -⟩ := deletePrefix_ok_of_bump ops bumpOrdinal hn pfx order'
      rw [h₁, h₂]
      refine congrArg Except.ok (BaseStore.ext (Finmap.ext_lookup fun k => ?_) ?_
        (Except.ok.inj ((deletePrefix_lastOrdinal ops bumpOrdinal h₂).symm.trans
          (deletePrefix_lastOrdinal ops bumpOrdinal h₁))))
      · rw [deletePrefix_lookup ops bumpOrdinal h₂, deletePrefix_lookup ops bumpOrdinal h₁]
      · rw [deletePrefix_deltas ops bumpOrdinal h₂, deletePrefix_deltas ops bumpOrdinal h₁,
          sortByKey_eq_of_perm (((order'.perm_entries order).filter _).map _)
            (order'.removed_keys_nodup ord pfx)]

/-- **`DeletePrefix` is exact and independent of the visit order.** Whatever order the map is
visited in, `DeletePrefix` has the same outcome. It panics when `bumpOrdinal` does, and
otherwise leaves a store with the ordinal `bumpOrdinal` gives, the map without the keys that
have the prefix, and the deltas with one `DELETE` appended per removed key, at ordinal `ord`,
from the key's value to `nil`, in strictly increasing key order. Reverse-applying those deltas
to the store, as `storesHandleUndo` does, gives back the map. -/
theorem deletePrefix_exact (b : BaseStore V) (ord : Nat) (pfx : String)
    (order order' : VisitOrder b.kv) :
    b.deletePrefix ops bumpOrdinal ord pfx order' = b.deletePrefix ops bumpOrdinal ord pfx order ∧
      (∀ p, bumpOrdinal b.lastOrdinal ord = .error p →
        b.deletePrefix ops bumpOrdinal ord pfx order = .error p) ∧
      ∀ n, bumpOrdinal b.lastOrdinal ord = .ok n →
        ∃ b', b.deletePrefix ops bumpOrdinal ord pfx order = .ok b' ∧ b'.lastOrdinal = n ∧
          (∀ k, b'.kv.lookup k = if pfx.data <+: k.data then none else b.kv.lookup k) ∧
          ∃ added, b'.deltas = b.deltas ++ added ∧
            (∀ d ∈ added, d.operation = .delete ∧ d.ordinal = ord ∧
              d.oldValue = b.kv.lookup d.key ∧ d.newValue = none) ∧
            (∀ k, k ∈ added.map StoreDelta.key ↔ k ∈ b.kv ∧ pfx.data <+: k.data) ∧
            added.Sorted (fun d e => d.key < e.key) ∧
            ∀ (storeMap : String → Option (BaseStore V)) (moduleName : String),
              storeMap moduleName = some b' →
              (storesHandleUndo ops storeMap moduleName added moduleName).map BaseStore.kv =
                some b.kv := by
  refine ⟨deletePrefix_visitOrder ops bumpOrdinal b ord pfx order order',
    fun p hp => (deletePrefix_error ops bumpOrdinal).mpr hp, fun n hn => ?_⟩
  obtain ⟨b', h, hord⟩ := deletePrefix_ok_of_bump ops bumpOrdinal hn pfx order
  set removed := (order.entries.filter fun e => hasPrefix e.1 pfx).map (deleteDelta ord)
  have hperm : (sortByKey removed).Perm removed := sortByKey_perm removed
  have hmem : ∀ d ∈ sortByKey removed, _ := fun d hd => order.mem_removed (hperm.subset hd)
  have hkeys : ∀ k, k ∈ (sortByKey removed).map StoreDelta.key ↔ k ∈ b.kv ∧ pfx.data <+: k.data :=
    fun k => ((hperm.map _).mem_iff).trans (order.removed_keys ord pfx k)
  refine ⟨b', h, hord, deletePrefix_lookup ops bumpOrdinal h, sortByKey removed,
    deletePrefix_deltas ops bumpOrdinal h, fun d hd => ?_, hkeys,
    sortByKey_sorted (order.removed_keys_nodup ord pfx), fun storeMap moduleName hs => ?_⟩
  · obtain ⟨hop, hord, hnew, v, hv, hlook⟩ := hmem d hd
    exact ⟨hop, hord, hv.trans hlook.symm, hnew⟩
  · rw [storesHandleUndo_self ops hs, Option.map_some']
    refine congrArg some (applyDeltasReverse_restores ops b.kv _
      (fun d hd => let ⟨hop, _, _, hv⟩ := hmem d hd; ⟨hop, hv⟩) _ fun k hk => ?_)
    rw [deletePrefix_lookup ops bumpOrdinal h]
    split
    · exact (Finmap.lookup_eq_none.mpr fun hkv => hk ((hkeys k).mpr ⟨hkv, ‹_›⟩)).symm
    · rfl

/-- **A second `DeletePrefix` of the same prefix only bumps the ordinal**, whatever order either
call visits the map in and whatever ordinal the second is at: it panics as `bumpOrdinal` does,
and otherwise finds no key to delete and appends no delta. -/
theorem deletePrefix_deletePrefix {b b' : BaseStore V} {ord : Nat} {pfx : String}
    {order : VisitOrder b.kv} (h : b.deletePrefix ops bumpOrdinal ord pfx order = .ok b')
    (ord' : Nat) (order' : VisitOrder b'.kv) :
    b'.deletePrefix ops bumpOrdinal ord' pfx order' =
      (bumpOrdinal b'.lastOrdinal ord').map fun n => { b' with lastOrdinal := n } := by
  have hnone : order'.entries.filter (fun e => hasPrefix e.1 pfx) = [] :=
    List.filter_eq_nil_iff.mpr fun e he hp => by
      have hlook := order'.lookup_of_mem he
      rw [deletePrefix_lookup ops bumpOrdinal h, if_pos (hasPrefix_eq_true.mp hp)] at hlook
      cases hlook
  cases hn : bumpOrdinal b'.lastOrdinal ord' with
  | error p => exact (deletePrefix_error ops bumpOrdinal).mpr hn
  | ok n =>
      obtain ⟨b'', h'', hord⟩ := deletePrefix_ok_of_bump ops bumpOrdinal hn pfx order'
      rw [h'']
      refine congrArg Except.ok (BaseStore.ext (Finmap.ext_lookup fun k => ?_) ?_ hord)
      · rw [deletePrefix_lookup ops bumpOrdinal h'']
        split
        · rw [deletePrefix_lookup ops bumpOrdinal h, if_pos ‹_›]
        · rfl
      · rw [deletePrefix_deltas ops bumpOrdinal h'', hnone]
        exact List.append_nil _

/-- The map `{"ab": 7, "b": 1}`, its key `"ab"` deleted at ordinal `1` by the prefix `"a"`,
and the prefix deleted again at ordinal `2`, with `bumpOrdinal` recording each ordinal. -/
theorem deletePrefix_deletePrefix_twice :
    let bump : Nat → Nat → Except Panic Nat := fun _ ord => .ok ord
    let b : BaseStore Nat := ⟨(Finmap.singleton "b" 1).insert "ab" 7, [], 0⟩
    let b' : BaseStore Nat := ⟨Finmap.singleton "b" 1, [⟨.delete, 1, "ab", some 7, none⟩], 1⟩
    b.deletePrefix (DeltaOps.byOperation Nat) bump 1 "a" ⟨[⟨"ab", 7⟩, ⟨"b", 1⟩], rfl⟩ = .ok b' ∧
      b'.deletePrefix (DeltaOps.byOperation Nat) bump 2 "a" ⟨[⟨"b", 1⟩], rfl⟩ =
        .ok { b' with lastOrdinal := 2 } := by
  intro bump b b'
  have h : b.deletePrefix (DeltaOps.byOperation Nat) bump 1 "a" ⟨[⟨"ab", 7⟩, ⟨"b", 1⟩], rfl⟩ =
      .ok b' := rfl
  exact ⟨h, deletePrefix_deletePrefix _ bump h 2 _⟩

/-! ## The deletes of a block, and their undo -/

end

end Substreams.Store
