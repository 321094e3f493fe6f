import HolLambdas.Lru
import Mathlib.Data.List.Dedup

/-!
# What an eviction cache holds

`Lru` is a cache as pointers. Here is the cache it is meant to be: a list of
keys with their values, most recently requested first, and a count of
evictions. `LruContent.request` is the whole behaviour of such a cache, one
request at a time: a hit moves the entry to the front, a miss first drops what
there is no room for, then builds, and a build that fails leaves the cache
without what was dropped.

Two facts connect the levels.

* For the pointers: `Lru.Tidy` strengthens well-formedness by one clause, that
  the remembered entry is the first of the list. It is what makes it harmless
  that a client finds the remembered entry without moving it to the front.
  Each operation keeps it and has a known effect on `Lru.content`.
* For the requests: with a fixed size and builds that succeed, the keys held are
  the most recently requested ones, in the order of their last request
  (`LruContent.RecentlyUsed.request`).

`Lru.ofContent` builds a cache with a given content from nothing, so that "a
cache that holds just these entries" can be said.
-/

namespace HolLambdas

/-- The entries, most recently requested first, and how many were evicted. -/
structure LruContent (K E : Type) where
  entries : List (K × E)
  evictions : Nat

namespace LruContent

variable {K E ε : Type} {p : Nat} {x : LruEntry K E}

def keys (c : LruContent K E) : List K :=
  c.entries.map Prod.fst

/-- Drop the entries beyond the first `size - 1`. -/
def makeRoom (size : Nat) (c : LruContent K E) : LruContent K E :=
  { entries := c.entries.take (size - 1)
    evictions := c.evictions + (c.entries.length - (size - 1)) }

variable [DecidableEq K]

def find (c : LruContent K E) (k : K) : Option E :=
  (c.entries.find? fun e => decide (e.1 = k)).map Prod.snd

/-- Serve a request for `k`: `build` is what building its value would give, and
`use` what using a value makes of it, given the evictions so far. -/
def request (size : Nat) (k : K) (build : Except ε E) (use : Nat → E → E)
    (c : LruContent K E) : Except ε E × LruContent K E :=
  match c.find k with
  | some v =>
    let v := use c.evictions v
    (.ok v, { c with entries := (k, v) :: c.entries.filter fun e => e.1 ≠ k })
  | none =>
    let c := c.makeRoom size
    match build with
    | .error e => (.error e, c)
    | .ok v =>
      let v := use c.evictions v
      (.ok v, { c with entries := (k, v) :: c.entries })

variable {c : LruContent K E} {k : K} {size : Nat} {history : List K}

theorem find_eq_none (h : c.find k = none) : k ∉ c.keys := by
  unfold find at h
  rw [Option.map_eq_none_iff, List.find?_eq_none] at h
  intro hk
  obtain ⟨e, he, hke⟩ := List.mem_map.mp hk
  exact h e he (decide_eq_true hke)

theorem find_eq_some {v : E} (h : c.find k = some v) : (k, v) ∈ c.entries := by
  obtain ⟨e, he, hv⟩ := Option.map_eq_some_iff.mp h
  have hat := List.find?_some he
  have hk : e.1 = k := of_decide_eq_true hat
  rw [← hk, ← hv]
  exact List.mem_of_find?_eq_some he

/-! ## The most recently requested keys -/

theorem dedup_concat (history : List K) (k : K) :
    (history ++ [k]).dedup = history.dedup.filter (fun a => a ≠ k) ++ [k] := by
  induction history with
  | nil => rfl
  | cons a history ih =>
    rw [List.cons_append]
    by_cases hmem : a ∈ history
    · rw [List.dedup_cons_of_mem (List.mem_append_left _ hmem), List.dedup_cons_of_mem hmem, ih]
    · by_cases ha : a = k
      · subst ha
        rw [List.dedup_cons_of_mem (by simp), List.dedup_cons_of_notMem hmem, ih]
        simp
      · have hnot : a ∉ history ++ [k] := by simp [hmem, ha]
        rw [List.dedup_cons_of_notMem hnot, List.dedup_cons_of_notMem hmem, ih]
        simp [ha]

/-- Among the first `n` different keys there is `k`: without it they are the
first `n - 1` of the others. -/
theorem filter_take_of_mem {l : List K} (hl : l.Nodup) {n : Nat} (hk : k ∈ l.take n) :
    (l.take n).filter (fun a => a ≠ k) = (l.filter fun a => a ≠ k).take (n - 1) := by
  induction l generalizing n with
  | nil => simp at hk
  | cons a l ih =>
    obtain ⟨ha, hl⟩ := List.nodup_cons.mp hl
    cases n with
    | zero => simp at hk
    | succ n =>
      rw [List.take_succ_cons] at hk ⊢
      by_cases hak : a = k
      · subst hak
        have hrest : ∀ m, (l.take m).filter (fun b => b ≠ a) = l.take m := fun m =>
          List.filter_eq_self.mpr fun b hb => by
            have hne : b ≠ a := fun h => ha (h ▸ List.mem_of_mem_take hb)
            simpa using hne
        have hall := hrest l.length
        rw [List.take_length] at hall
        rw [List.filter_cons_of_neg (by simp), List.filter_cons_of_neg (by simp), hrest, hall,
          Nat.add_sub_cancel]
      · have hkl : k ∈ l.take n := by
          rcases List.mem_cons.mp hk with h | h
          · exact absurd h.symm hak
          · exact h
        obtain ⟨m, rfl⟩ : ∃ m, n = m + 1 := by
          refine ⟨n - 1, ?_⟩
          have : n ≠ 0 := fun h => by simp [h] at hkl
          omega
        rw [List.filter_cons_of_pos (by simpa using hak),
          List.filter_cons_of_pos (by simpa using hak), ih hl hkl]
        simp

/-- Among the first `n` keys there is no `k`. -/
theorem take_filter_of_notMem {l : List K} {n : Nat} (hk : k ∉ l.take n) :
    (l.filter fun a => a ≠ k).take n = l.take n := by
  induction l generalizing n with
  | nil => rfl
  | cons a l ih =>
    cases n with
    | zero => simp
    | succ n =>
      rw [List.take_succ_cons, List.mem_cons, not_or] at hk
      rw [List.filter_cons_of_pos (by simpa using Ne.symm hk.1), List.take_succ_cons,
        List.take_succ_cons, ih hk.2]

/-- The cache holds the `size` most recently requested keys of `history`, or all
there are, in the order of their last request. -/
def RecentlyUsed (size : Nat) (history : List K) (c : LruContent K E) : Prop :=
  c.keys = history.dedup.reverse.take size

theorem RecentlyUsed.length (h : RecentlyUsed size history c) :
    c.entries.length = min size history.dedup.length := by
  have hlen := congrArg List.length h
  rwa [keys, List.length_map, List.length_take, List.length_reverse] at hlen

/-- **One request**, if its build would succeed. -/
theorem RecentlyUsed.request (hsize : 1 ≤ size) (h : RecentlyUsed size history c)
    {build : Except ε E} (hbuild : ∃ v, build = .ok v) (use : Nat → E → E) :
    RecentlyUsed size (history ++ [k]) (c.request size k build use).2 := by
  have hrecent : (history ++ [k]).dedup.reverse.take size =
      k :: (history.dedup.reverse.filter fun a => a ≠ k).take (size - 1) := by
    obtain ⟨n, rfl⟩ : ∃ n, size = n + 1 := ⟨size - 1, by omega⟩
    rw [dedup_concat, List.reverse_append, List.filter_reverse]
    simp
  unfold RecentlyUsed LruContent.request
  rw [hrecent]
  have hkeys : c.keys = history.dedup.reverse.take size := h
  cases hfind : c.find k with
  | some v =>
    have hk : k ∈ history.dedup.reverse.take size := by
      rw [← hkeys]
      exact List.mem_map.mpr ⟨_, find_eq_some hfind, rfl⟩
    have hnodup : history.dedup.reverse.Nodup := List.nodup_reverse.mpr history.nodup_dedup
    rw [← filter_take_of_mem hnodup hk, ← hkeys]
    simp [keys, List.filter_map, Function.comp_def]
  | none =>
    have hk : k ∉ history.dedup.reverse.take size := by
      rw [← hkeys]
      exact find_eq_none hfind
    have hk' : k ∉ history.dedup.reverse.take (size - 1) := fun hmem =>
      hk ((List.take_prefix_take_left (by omega)).subset hmem)
    obtain ⟨v, hv⟩ := hbuild
    rw [take_filter_of_notMem hk', hv]
    have htake := congrArg (List.take (size - 1)) hkeys
    rw [List.take_take, Nat.min_eq_left (by omega)] at htake
    simp [keys, makeRoom, ← htake]

end LruContent

/-! ## The content of the pointers -/

namespace Lru

variable {K E : Type}

/-- What lies at an address. -/
def entryAt (c : Lru K E) (p : Nat) : Option (K × E) :=
  (c.heap p).map fun x => (x.key, x.val)

/-- What a cache holds, the pointers forgotten. -/
def content (c : Lru K E) : LruContent K E :=
  { entries := c.order.filterMap c.entryAt
    evictions := c.evictions }

/-- Well-formed, and the entry remembered as used last is the first of the list. -/
structure Tidy (hash : K → UInt32) (c : Lru K E) : Prop extends WF hash c where
  lastFirst : ∀ p, c.last = some p → c.order.head? = some p

theorem tidy_empty (hash : K → UInt32) : Tidy hash (empty : Lru K E) :=
  { wf_empty hash with lastFirst := fun _ h => by cases h }

theorem entryAt_of_live {c : Lru K E} (hx : c.heap p = some x) :
    c.entryAt p = some (x.key, x.val) := by
  rw [entryAt, hx]
  rfl

/-- A change of the heap at one address does not change the others. -/
theorem filterMap_entryAt_update {c : Lru K E} {o : Option (LruEntry K E)} {l : List Nat}
    (hp : p ∉ l) :
    l.filterMap (fun q => (Function.update c.heap p o q).map fun x => (x.key, x.val)) =
      l.filterMap c.entryAt := by
  refine List.filterMap_congr fun q hq => ?_
  have hne : q ≠ p := fun h => hp (h ▸ hq)
  rw [Function.update_of_ne hne]
  rfl

namespace WF

variable {hash : K → UInt32} {c : Lru K E}

theorem length_entries (hc : WF hash c) : c.content.entries.length = c.nentries := by
  have hall : ∀ l : List Nat, (∀ p ∈ l, p ∈ c.order) →
      (l.filterMap c.entryAt).length = l.length := by
    intro l
    induction l with
    | nil => intro _; rfl
    | cons p l ih =>
      intro hl
      obtain ⟨x, hx⟩ := (hc.live p).mp (hl p List.mem_cons_self)
      rw [List.filterMap_cons_some (entryAt_of_live hx), List.length_cons,
        ih fun q hq => hl q (List.mem_cons_of_mem _ hq), List.length_cons]
  rw [hc.count]
  exact hall c.order fun _ h => h

theorem mem_entries (hc : WF hash c) {k : K} {v : E} :
    (k, v) ∈ c.content.entries ↔ ∃ p x, c.heap p = some x ∧ x.key = k ∧ x.val = v := by
  unfold content
  rw [List.mem_filterMap]
  constructor
  · rintro ⟨p, _, hp⟩
    obtain ⟨x, hx, he⟩ := Option.map_eq_some_iff.mp hp
    obtain ⟨hk, hv⟩ := Prod.mk.inj he
    exact ⟨p, x, hx, hk, hv⟩
  · rintro ⟨p, x, hx, rfl, rfl⟩
    exact ⟨p, (hc.live p).mpr ⟨x, hx⟩, entryAt_of_live hx⟩

theorem keys_nodup (hc : WF hash c) : c.content.keys.Nodup := by
  unfold LruContent.keys content
  rw [List.map_filterMap]
  refine List.Nodup.filterMap ?_ hc.nodup
  intro p q k hp hq
  obtain ⟨e, he, hk⟩ := Option.map_eq_some_iff.mp hp
  obtain ⟨e', he', hk'⟩ := Option.map_eq_some_iff.mp hq
  obtain ⟨x, hx, rfl⟩ := Option.map_eq_some_iff.mp he
  obtain ⟨y, hy, rfl⟩ := Option.map_eq_some_iff.mp he'
  exact hc.keys p q x y hx hy (hk.trans hk'.symm)

/-- The entries without one of them are those with another key. -/
theorem entries_erase (hc : WF hash c) (hx : c.heap p = some x) [DecidableEq K] :
    (c.order.erase p).filterMap c.entryAt = c.content.entries.filter fun e => e.1 ≠ x.key := by
  rw [hc.nodup.erase_eq_filter, List.filterMap_filter]
  unfold content
  rw [List.filter_filterMap]
  refine List.filterMap_congr fun q hq => ?_
  obtain ⟨y, hy⟩ := (hc.live q).mp hq
  rw [entryAt_of_live hy]
  by_cases hqp : q = p
  · subst hqp
    rw [hx] at hy
    cases hy
    simp [Option.filter]
  · have hkey : y.key ≠ x.key := fun h => hqp (hc.keys q p y x hy hx h)
    simp [Option.filter, hqp, hkey]

/-- Writing the first entry of the list. -/
theorem entries_modify_head (hc : WF hash c) {l : List Nat} (horder : c.order = p :: l)
    (x : LruEntry K E) (v : E) :
    (c.modify p x v).content.entries = (x.key, v) :: l.filterMap c.entryAt := by
  have hp : p ∉ l := (List.nodup_cons.mp (horder ▸ hc.nodup)).1
  show c.order.filterMap _ = _
  rw [horder, List.filterMap_cons_some (b := (x.key, v))]
  · exact congrArg _ (filterMap_entryAt_update hp)
  · exact entryAt_of_live (c := c.modify p x v) (Function.update_self ..)

theorem find_eq_some (hc : WF hash c) [DecidableEq K] (hx : c.heap p = some x) :
    c.content.find x.key = some x.val := by
  have hmem : (x.key, x.val) ∈ c.content.entries := hc.mem_entries.mpr ⟨p, x, hx, rfl, rfl⟩
  cases hfind : c.content.find x.key with
  | none => exact absurd (List.mem_map.mpr ⟨_, hmem, rfl⟩) (LruContent.find_eq_none hfind)
  | some v =>
    obtain ⟨q, y, hy, hkey, hv⟩ := hc.mem_entries.mp (LruContent.find_eq_some hfind)
    have hq := hc.keys q p y x hy hx hkey
    rw [hq, hx] at hy
    cases hy
    rw [hv]

end WF

theorem touch_eq_self {c : Lru K E} (h : c.order.head? = some p) : c.touch p = c := by
  obtain ⟨l, hl⟩ := List.head?_eq_some_iff.mp h
  unfold touch
  rw [hl, List.erase_cons_head, ← hl]

theorem setLast_eq_self {c : Lru K E} (h : c.last = some p) : c.setLast p = c := by
  unfold setLast
  rw [← h]

namespace Tidy

variable [DecidableEq K] {hash : K → UInt32} {c : Lru K E}

/-- A hit: the entry goes to the front, is remembered, and is used. -/
theorem hit (hc : Tidy hash c) (hx : c.heap p = some x) (v : E) :
    Tidy hash (((c.touch p).setLast p).modify p x v) ∧
      (((c.touch p).setLast p).modify p x v).content =
        { c.content with
          entries := (x.key, v) :: c.content.entries.filter fun e => e.1 ≠ x.key } := by
  have hp : p ∈ c.order := (hc.live p).mpr ⟨x, hx⟩
  have hfront : WF hash ((c.touch p).setLast p) :=
    (hc.toWF.touch hp).setLast List.mem_cons_self
  refine ⟨{ hfront.modify hx v with lastFirst := ?_ }, ?_⟩
  · intro q hq
    cases hq
    rfl
  · have hentries := hfront.entries_modify_head (l := c.order.erase p) rfl x v
    have herase : (c.order.erase p).filterMap ((c.touch p).setLast p).entryAt =
        c.content.entries.filter fun e => e.1 ≠ x.key := hc.entries_erase hx
    rw [herase] at hentries
    rw [← hentries]
    rfl

/-- An eviction drops the last entry. -/
theorem evict (hc : Tidy hash c) (hne : 0 < c.nentries) :
    ∃ c', c.evict = some c' ∧ Tidy hash c' ∧ c'.nentries + 1 = c.nentries ∧
      (∀ p x, c'.heap p = some x → c.heap p = some x) ∧
      c'.content = { entries := c.content.entries.dropLast, evictions := c.evictions + 1 } := by
  have hcount := hc.count
  obtain ⟨l, p, horder⟩ : ∃ l p, c.order = l ++ [p] := by
    refine ⟨_, _, (List.dropLast_append_getLast (List.ne_nil_of_length_pos ?_)).symm⟩
    omega
  obtain ⟨x, hx⟩ := (hc.live p).mp (by rw [horder]; simp)
  have hp : p ∉ l := fun h => by
    have hnodup := hc.nodup
    rw [horder, List.nodup_append] at hnodup
    exact hnodup.2.2 p h p (by simp) rfl
  have herase : c.order.erase p = l := by
    rw [horder, List.erase_append_right _ hp]
    simp
  have hevict : c.evict = some (c.remove p x) := by
    unfold Lru.evict
    rw [horder, List.getLast?_concat]
    show (c.heap p).bind _ = _
    rw [hx]
    rfl
  have hsub : ∀ q y, (c.remove p x).heap q = some y → c.heap q = some y := by
    intro q y hy
    change Function.update c.heap p none q = some y at hy
    by_cases hq : q = p
    · rw [hq, Function.update_self] at hy
      cases hy
    · rwa [Function.update_of_ne hq] at hy
  refine ⟨c.remove p x, hevict, { hc.toWF.remove hx with lastFirst := ?_ }, ?_, hsub, ?_⟩
  · -- the remembered entry is the first: it is dropped only if it is the only one
    intro q hq
    change (if c.last = some p then none else c.last) = some q at hq
    show (c.order.erase p).head? = some q
    split at hq
    · cases hq
    · next hlast =>
      have hhead := hc.lastFirst q hq
      rw [herase]
      rw [horder] at hhead
      cases l with
      | nil =>
        cases hhead
        exact absurd hq hlast
      | cons a l => exact hhead
  · show c.nentries - 1 + 1 = c.nentries
    omega
  · have hentries : c.content.entries = l.filterMap c.entryAt ++ [(x.key, x.val)] := by
      show c.order.filterMap _ = _
      rw [horder, List.filterMap_append, List.filterMap_cons_some (entryAt_of_live hx)]
      rfl
    have hrest : (c.remove p x).content.entries = l.filterMap c.entryAt := by
      show (c.order.erase p).filterMap _ = _
      rw [herase]
      exact filterMap_entryAt_update hp
    rw [hentries, List.dropLast_concat, ← hrest]
    rfl

/-- The eviction loop drops what is too much. -/
theorem makeRoom (hc : Tidy hash c) (size : Nat) {rounds : Nat} (hrounds : c.nentries ≤ rounds) :
    ∃ c', c.makeRoom size rounds = some c' ∧ Tidy hash c' ∧
      (∀ p x, c'.heap p = some x → c.heap p = some x) ∧
      c'.content = c.content.makeRoom size := by
  induction rounds generalizing c with
  | zero =>
    refine ⟨c, rfl, hc, fun _ _ h => h, ?_⟩
    have hlen := hc.length_entries
    have hnil : c.content.entries = [] := List.eq_nil_of_length_eq_zero (by omega)
    unfold LruContent.makeRoom
    rw [hnil, List.take_nil, List.length_nil, Nat.zero_sub, ← hnil]
    rfl
  | succ n ih =>
    unfold Lru.makeRoom
    have hlen := hc.length_entries
    by_cases hfull : 0 < c.nentries ∧ size ≤ c.nentries
    · obtain ⟨c₁, hev, hc₁, hcount, hsub₁, hcontent₁⟩ := hc.evict hfull.1
      obtain ⟨c₂, hroom, hc₂, hsub₂, hcontent₂⟩ := ih hc₁ (by omega)
      refine ⟨c₂, ?_, hc₂, fun p x hx => hsub₁ p x (hsub₂ p x hx), ?_⟩
      · rw [if_pos hfull, hev]
        exact hroom
      · have hevictions : c.content.evictions = c.evictions := rfl
        rw [hcontent₂, hcontent₁]
        unfold LruContent.makeRoom
        dsimp only
        rw [List.dropLast_eq_take, List.take_take, List.length_take, hevictions,
          Nat.min_eq_left (show size - 1 ≤ c.content.entries.length - 1 by omega),
          show c.evictions + 1 + (min (c.content.entries.length - 1) c.content.entries.length -
              (size - 1)) = c.evictions + (c.content.entries.length - (size - 1)) by omega]
    · refine ⟨c, if_neg hfull, hc, fun _ _ h => h, ?_⟩
      unfold LruContent.makeRoom
      rw [List.take_of_length_le (by omega), Nat.sub_eq_zero_of_le (by omega)]
      rfl

/-- A miss: the new entry is the first, is remembered, and is used. -/
theorem miss (hc : Tidy hash c) (hhash : x.hash = hash x.key)
    (hnew : ∀ p y, c.heap p = some y → y.key ≠ x.key) (v : E) :
    Tidy hash (((c.insert x).setLast c.next).modify c.next x v) ∧
      (((c.insert x).setLast c.next).modify c.next x v).content =
        { c.content with entries := (x.key, v) :: c.content.entries } := by
  have hfront : WF hash ((c.insert x).setLast c.next) :=
    (hc.toWF.insert hhash hnew).setLast List.mem_cons_self
  have hx : ((c.insert x).setLast c.next).heap c.next = some x := Function.update_self ..
  refine ⟨{ hfront.modify hx v with lastFirst := ?_ }, ?_⟩
  · intro q hq
    cases hq
    rfl
  · have hentries := hfront.entries_modify_head (l := c.order) rfl x v
    have hold : c.order.filterMap ((c.insert x).setLast c.next).entryAt = c.content.entries :=
      filterMap_entryAt_update fun h => Nat.lt_irrefl _ (hc.fresh _ h)
    rw [hold] at hentries
    rw [← hentries]
    rfl

end Tidy

/-! ## A cache with a given content -/

section OfContent

variable [DecidableEq K]

/-- Enter the entries into an empty cache, the last one first. -/
def ofContent (hash : K → UInt32) (content : LruContent K E) : Lru K E :=
  content.entries.foldr (fun e c => c.insert ⟨hash e.1, e.1, e.2⟩)
    { empty with evictions := content.evictions }

/-- Every content without repeated keys is that of a tidy cache. -/
theorem tidy_ofContent (hash : K → UInt32) (content : LruContent K E) (hkeys : content.keys.Nodup) :
    Tidy hash (ofContent hash content) ∧ (ofContent hash content).content = content ∧
      (ofContent hash content).last = none := by
  obtain ⟨entries, evictions⟩ := content
  unfold ofContent
  dsimp only
  induction entries with
  | nil =>
    have hempty := wf_empty (E := E) hash
    exact ⟨{ hempty with lastFirst := fun _ h => by cases h }, rfl, rfl⟩
  | cons e entries ih =>
    obtain ⟨hnew, hkeys⟩ := List.nodup_cons.mp hkeys
    obtain ⟨htidy, hcontent, hlast⟩ := ih hkeys
    rw [List.foldr_cons]
    generalize entries.foldr (fun e c => c.insert ⟨hash e.1, e.1, e.2⟩)
      { empty with evictions := evictions } = c at htidy hcontent hlast ⊢
    have hmiss : ∀ p y, c.heap p = some y → y.key ≠ e.1 := by
      intro p y hy hkey
      apply hnew
      have hmem := htidy.mem_entries.mpr ⟨p, y, hy, hkey, rfl⟩
      rw [hcontent] at hmem
      exact List.mem_map.mpr ⟨_, hmem, rfl⟩
    have hwf : WF hash (c.insert ⟨hash e.1, e.1, e.2⟩) := htidy.toWF.insert rfl hmiss
    refine ⟨{ hwf with lastFirst := fun p hp => ?_ }, ?_, hlast⟩
    · change c.last = some p at hp
      rw [hlast] at hp
      cases hp
    · have hold : c.order.filterMap (c.insert ⟨hash e.1, e.1, e.2⟩).entryAt =
          c.content.entries :=
        filterMap_entryAt_update fun h => Nat.lt_irrefl _ (htidy.fresh _ h)
      have hhead : (c.insert ⟨hash e.1, e.1, e.2⟩).entryAt c.next = some e :=
        entryAt_of_live (x := ⟨hash e.1, e.1, e.2⟩) (Function.update_self ..)
      have hentries : (c.insert ⟨hash e.1, e.1, e.2⟩).content.entries = e :: entries := by
        show (c.next :: c.order).filterMap _ = _
        rw [List.filterMap_cons_some hhead, hold, hcontent]
      have hevictions : c.evictions = evictions := congrArg LruContent.evictions hcontent
      rw [← hentries, ← hevictions]
      rfl

end OfContent

end Lru

end HolLambdas
