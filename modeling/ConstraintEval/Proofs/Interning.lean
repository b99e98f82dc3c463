import ConstraintEval.Source.InternTable
import Mathlib.Data.List.Nodup
import Mathlib.Data.List.Perm.Subperm

/-!
# Names and their symbols

An interner is asked to intern names, to find the symbols of names and to find the names of symbols,
in any order. Whatever it is asked, it numbers the names in the order in which they are first
interned, after the empty name. So a name has the same symbol whenever it is interned and no other
name has it, a symbol stands for its name from then on, and only interning has an effect.

The table that an interner works with numbers names in words. It gives the same replies as long as
there are words enough.
-/

namespace ConstraintEval

/-! ### Requests -/

/-- What can be asked of an interner. -/
inductive NameRequest where
  /-- The symbol of a name, which is new or not. -/
  | intern (name : String)
  /-- The symbol of a name, if it has been seen. -/
  | get (name : String)
  /-- The name of a symbol. -/
  | lookup (s : Symbol)
  deriving DecidableEq

/-- What an interner replies. -/
inductive NameReply where
  /-- A symbol, if there is one. -/
  | symbol (s : Option Symbol)
  /-- A name, if there is one. -/
  | name (name : Option String)
  deriving DecidableEq

/-- The reply to a request, with the interner after it. -/
def Interner.serve (t : Interner) : NameRequest → NameReply × Interner
  | .intern name => (.symbol (some (t.intern name).1), (t.intern name).2)
  | .get name => (.symbol (t.get? name), t)
  | .lookup s => (.name (t.lookup? s), t)

/-- The reply to a request, with the table after it. -/
def InternTable.serve (t : InternTable) : NameRequest → NameReply × InternTable
  | .intern name => (.symbol (t.intern name).1, (t.intern name).2)
  | .get name => (.symbol (t.get? name), t)
  | .lookup s => (.name (t.lookup? s), t)

section Runs

variable {σ τ : Type} {serve : σ → NameRequest → NameReply × σ}
  {serve' : τ → NameRequest → NameReply × τ} {t : σ} {rs : List NameRequest}

/-- The replies to some requests, one after another. -/
def replies (serve : σ → NameRequest → NameReply × σ) : σ → List NameRequest → List NameReply
  | _, [] => []
  | t, r :: rs => (serve t r).1 :: replies serve (serve t r).2 rs

/-- What is left after some requests. -/
def afterRequests (serve : σ → NameRequest → NameReply × σ) (t : σ) (rs : List NameRequest) : σ :=
  rs.foldl (fun t r ↦ (serve t r).2) t

theorem afterRequests_concat (t : σ) (rs : List NameRequest) (r : NameRequest) :
    afterRequests serve t (rs ++ [r]) = (serve (afterRequests serve t rs) r).2 :=
  List.foldl_concat ..

/-- A request is replied to by what the requests before it have left. -/
theorem getElem?_replies (t : σ) (rs : List NameRequest) (i : Nat) :
    (replies serve t rs)[i]? =
      rs[i]?.map fun r ↦ (serve (afterRequests serve t (rs.take i)) r).1 := by
  induction rs generalizing t i with
  | nil => rfl
  | cons r rs ih =>
    cases i with
    | zero => rfl
    | succ i => exact ih (serve t r).2 i

theorem length_replies (t : σ) (rs : List NameRequest) :
    (replies serve t rs).length = rs.length := by
  induction rs generalizing t with
  | nil => rfl
  | cons r rs ih => rw [replies, List.length_cons, ih, List.length_cons]

private theorem take_upTo {i : Nat} {r : NameRequest} (request : rs[i]? = some r) :
    rs.take (i + 1) = rs.take i ++ [r] := by
  rw [List.take_add_one, request, Option.toList_some]

/-- Requests that have no effect can be left out. -/
theorem replies_filter {p : NameRequest → Bool}
    (quiet : ∀ t r, p r = false → (serve t r).2 = t) (t : σ) (rs : List NameRequest) :
    afterRequests serve t (rs.filter p) = afterRequests serve t rs ∧
      replies serve t (rs.filter p) =
        ((rs.zip (replies serve t rs)).filter (p ·.1)).map Prod.snd := by
  induction rs generalizing t with
  | nil => exact ⟨rfl, rfl⟩
  | cons r rs ih =>
    obtain ⟨left, same⟩ := ih (serve t r).2
    rw [replies, List.zip_cons_cons]
    cases keep : p r with
    | true =>
      simp only [List.filter_cons, keep, if_true, List.map_cons]
      exact ⟨left, congrArg (_ :: ·) same⟩
    | false =>
      have unchanged := quiet t r keep
      simp only [List.filter_cons, keep, Bool.false_eq_true, if_false]
      rw [unchanged] at left same ⊢
      refine ⟨left.trans ?_, same⟩
      rw [afterRequests, afterRequests, List.foldl_cons, unchanged]

end Runs

/-! ### Names in the order of their first occurrence -/

namespace NameRequest

/-- The name that a request interns. -/
def interned? : NameRequest → Option String
  | intern name => some name
  | get _ | lookup _ => none

/-- Whether a request interns a name. -/
def interns (r : NameRequest) : Bool := r.interned?.isSome

end NameRequest

section Names

variable {rs : List NameRequest} {name : String}

/-- The names that requests intern. -/
def interned (rs : List NameRequest) : List String := rs.filterMap NameRequest.interned?

/-- The empty name and the names that requests intern, in the order of their first occurrence. -/
def firstNames (rs : List NameRequest) : List String := ("" :: interned rs).eraseDups

theorem mem_interned : name ∈ interned rs ↔ .intern name ∈ rs := by
  rw [interned, List.mem_filterMap]
  constructor
  · rintro ⟨r, mem, interns⟩
    cases r <;> cases interns
    exact mem
  · exact fun mem ↦ ⟨_, mem, rfl⟩

theorem mem_firstNames : name ∈ firstNames rs ↔ name = "" ∨ .intern name ∈ rs := by
  rw [firstNames, List.mem_eraseDups, List.mem_cons, mem_interned]

theorem firstNames_concat_intern (rs : List NameRequest) (name : String) :
    firstNames (rs ++ [.intern name]) =
      if name ∈ firstNames rs then firstNames rs else firstNames rs ++ [name] := by
  have split : interned (rs ++ [.intern name]) = interned rs ++ [name] := by
    rw [interned, List.filterMap_append]
    rfl
  have seen : name ∈ firstNames rs ↔ name ∈ "" :: interned rs := List.mem_eraseDups
  rw [firstNames, split, ← List.cons_append, List.eraseDups_append, ← firstNames,
    List.cons_removeAll, List.nil_removeAll, List.contains_eq_mem]
  by_cases mem : name ∈ "" :: interned rs
  · simp [seen.2 mem, mem]
  · simp [mt seen.1 mem, mem, List.eraseDups_cons]

/-- A request that interns nothing adds no name. -/
theorem firstNames_concat_of_quiet {r : NameRequest} (quiet : r.interns = false) :
    firstNames (rs ++ [r]) = firstNames rs := by
  have none : interned [r] = [] := by cases r <;> first | rfl | cases quiet
  rw [firstNames, interned, List.filterMap_append, ← interned, ← interned, none, List.append_nil,
    ← firstNames]

theorem firstNames_take_initial (rs : List NameRequest) (i : Nat) :
    firstNames (rs.take i) <+: firstNames rs := by
  have split : interned rs = interned (rs.take i) ++ interned (rs.drop i) := by
    rw [interned, interned, interned, ← List.filterMap_append, List.take_append_drop]
  rw [firstNames, firstNames, split, ← List.cons_append, List.eraseDups_append]
  exact List.prefix_append ..

/-- The empty name has the first place. -/
theorem idxOf_empty (rs : List NameRequest) : (firstNames rs).idxOf "" = 0 := by
  rw [firstNames, List.eraseDups_cons]
  exact List.idxOf_cons_self

theorem mem_firstNames_of_intern {i : Nat} (request : rs[i]? = some (.intern name)) :
    name ∈ firstNames rs :=
  mem_firstNames.2 (.inr (List.mem_of_getElem? request))

theorem mem_firstNames_take {j : Nat} : name ∈ firstNames (rs.take j) ↔
    name = "" ∨ ∃ i < j, rs[i]? = some (.intern name) := by
  rw [mem_firstNames, List.mem_iff_getElem?]
  refine or_congr_right (exists_congr fun i ↦ ?_)
  rw [List.getElem?_take]
  split
  · next lt => exact (and_iff_right lt).symm
  · next past => exact iff_of_false nofun fun h ↦ past h.1

theorem nodup_firstNames (rs : List NameRequest) : (firstNames rs).Nodup := by
  induction rs using List.reverseRecOn with
  | nil => exact List.nodup_singleton ""
  | append_singleton rs r ih =>
    cases quiet : r.interns with
    | false => rwa [firstNames_concat_of_quiet quiet]
    | true =>
      cases r with
      | intern name =>
        rw [firstNames_concat_intern]
        split
        · exact ih
        · next new => exact List.nodup_append_comm.1 (List.nodup_cons.2 ⟨new, ih⟩)
      | get _ | lookup _ => cases quiet

end Names

/-! ### Replies of an interner -/

/-- Replies that number names in the order in which they are first interned. -/
structure Numbers (rs : List NameRequest) (replies : List NameReply) : Prop where
  /-- Each request has a reply. -/
  length_eq : replies.length = rs.length
  /-- A name that is interned has its place among the names as its number. -/
  intern : ∀ (i : Nat) (name : String), rs[i]? = some (.intern name) →
    ∃ n, replies[i]? = some (.symbol (some ⟨n⟩)) ∧ (firstNames rs)[n]? = some name
  /-- Whenever two names are interned, their symbols are the same exactly if the names are. -/
  intern_inj : ∀ (i j : Nat) (name name' : String), rs[i]? = some (.intern name) →
    rs[j]? = some (.intern name') → (replies[i]? = replies[j]? ↔ name = name')
  /-- The numbers of names are those that are given, and 0 for the empty name. -/
  lt_iff : ∀ n, n < (firstNames rs).length ↔ n = 0 ∨
    ∃ (i : Nat) (name : String), rs[i]? = some (.intern name) ∧
      replies[i]? = some (.symbol (some ⟨n⟩))
  /-- From when its name is interned a symbol stands for the name. -/
  lookup : ∀ (i j : Nat) (name : String) (s : Symbol), i < j → rs[i]? = some (.intern name) →
    replies[i]? = some (.symbol (some s)) → rs[j]? = some (.lookup s) →
      replies[j]? = some (.name (some name))
  /-- A name is found exactly if it is empty or has been interned, and then with its symbol. -/
  get : ∀ (j : Nat) (name : String), rs[j]? = some (.get name) →
    ∃ found : Option Symbol, replies[j]? = some (.symbol found) ∧
      (found.isSome = true ↔ name = "" ∨ ∃ i < j, rs[i]? = some (.intern name)) ∧
      ∀ s ∈ found, (name = "" → s = .empty) ∧
        ∀ i : Nat, rs[i]? = some (.intern name) → replies[i]? = some (.symbol (some s))

namespace Interner

/-- The symbol of a name is its first place among the names. -/
theorem get?_eq (t : Interner) (name : String) : t.get? name =
    if name ∈ t.names.toList then some ⟨t.names.toList.idxOf name⟩ else none := by
  have first : t.names.findIdx? (· == name) = t.names.toList.idxOf? name :=
    List.findIdx?_toArray (· == name) t.names.toList
  rw [get?, first, List.idxOf_eq_getD_idxOf?]
  split
  · next mem =>
    cases place : t.names.toList.idxOf? name with
    | none => exact absurd mem (List.idxOf?_eq_none_iff.1 place)
    | some n => rfl
  · next new => rw [List.idxOf?_eq_none_iff.2 new, Option.map_none]

theorem names_intern (t : Interner) (name : String) : (t.intern name).2.names.toList =
    if name ∈ t.names.toList then t.names.toList else t.names.toList ++ [name] := by
  rw [intern, get?_eq]
  by_cases mem : name ∈ t.names.toList
  · simp only [if_pos mem]
  · simp only [if_neg mem]
    exact Array.toList_push

/-- Interning gives the first place that the name has afterwards. -/
theorem intern_eq_idxOf (t : Interner) (name : String) :
    (t.intern name).1 = ⟨(t.intern name).2.names.toList.idxOf name⟩ := by
  rw [names_intern, intern, get?_eq]
  by_cases mem : name ∈ t.names.toList
  · simp only [if_pos mem]
  · simp only [if_neg mem]
    rw [List.idxOf_append_of_notMem mem, List.idxOf_cons_self, Array.length_toList]
    rfl

variable {rs : List NameRequest} {i j : Nat} {name : String} {s : Symbol}

/-- The names seen are those in the order of their first occurrence. -/
theorem names_afterRequests (rs : List NameRequest) :
    (afterRequests serve empty rs).names.toList = firstNames rs := by
  induction rs using List.reverseRecOn with
  | nil => rfl
  | append_singleton rs r ih =>
    rw [afterRequests_concat]
    cases r with
    | intern name => rw [serve, names_intern, ih, firstNames_concat_intern]
    | get _ | lookup _ => rw [serve, ih, firstNames_concat_of_quiet rfl]

private theorem idxOf_of_initial {as bs : List String} (h : as <+: bs) (mem : name ∈ as) :
    as.idxOf name = bs.idxOf name := by
  obtain ⟨cs, rfl⟩ := h
  rw [List.idxOf_append_of_mem mem]

/-- Wherever a name is interned, its number is its place among all names that are interned. -/
theorem reply_intern (request : rs[i]? = some (.intern name)) :
    (replies serve empty rs)[i]? = some (.symbol (some ⟨(firstNames rs).idxOf name⟩)) := by
  have upTo := take_upTo request
  have names := names_afterRequests (rs.take (i + 1))
  rw [upTo, afterRequests_concat, ← upTo, serve] at names
  have mem : name ∈ firstNames (rs.take (i + 1)) :=
    mem_firstNames_take.2 (.inr ⟨i, Nat.lt_succ_self i, request⟩)
  rw [getElem?_replies, request, Option.map_some, serve, intern_eq_idxOf, names,
    idxOf_of_initial (firstNames_take_initial rs (i + 1)) mem]

theorem reply_get (request : rs[j]? = some (.get name)) :
    (replies serve empty rs)[j]? = some (.symbol
      (if name ∈ firstNames (rs.take j) then some ⟨(firstNames rs).idxOf name⟩ else none)) := by
  rw [getElem?_replies, request, Option.map_some, serve, get?_eq, names_afterRequests]
  split
  · next mem => rw [idxOf_of_initial (firstNames_take_initial rs j) mem]
  · rfl

theorem reply_lookup (request : rs[j]? = some (.lookup s)) :
    (replies serve empty rs)[j]? = some (.name (firstNames (rs.take j))[s.index]?) := by
  rw [getElem?_replies, request, Option.map_some, serve, lookup?, ← Array.getElem?_toList,
    names_afterRequests]

theorem numbers_replies (rs : List NameRequest) : Numbers rs (replies serve empty rs) where
  length_eq := length_replies _ rs
  intern i name request :=
    ⟨_, reply_intern request, List.getElem?_idxOf (mem_firstNames_of_intern request)⟩
  intern_inj i j name name' request request' := by
    rw [reply_intern request, reply_intern request', Option.some.injEq, NameReply.symbol.injEq,
      Option.some.injEq, Symbol.mk.injEq]
    exact List.idxOf_inj (mem_firstNames_of_intern request)
  lt_iff n := by
    constructor
    · intro lt
      have place : (firstNames rs).idxOf (firstNames rs)[n] = n :=
        (nodup_firstNames rs).idxOf_getElem n lt
      rcases mem_firstNames.1 (List.getElem_mem lt) with none | mem
      · rw [none, idxOf_empty] at place
        exact .inl place.symm
      · obtain ⟨i, request⟩ := List.mem_iff_getElem?.1 mem
        exact .inr ⟨i, _, request, by rw [reply_intern request, place]⟩
    · rintro (rfl | ⟨i, name, request, reply⟩)
      · exact List.length_pos_of_mem (mem_firstNames.2 (.inl rfl))
      · rw [reply_intern request] at reply
        cases reply
        exact List.idxOf_lt_length_of_mem (mem_firstNames_of_intern request)
  lookup i j name s before request reply request' := by
    rw [reply_intern request] at reply
    cases reply
    have mem : name ∈ firstNames (rs.take j) := mem_firstNames_take.2 (.inr ⟨i, before, request⟩)
    rw [reply_lookup request', ← idxOf_of_initial (firstNames_take_initial rs j) mem,
      List.getElem?_idxOf mem]
  get j name request := by
    refine ⟨_, reply_get request, ?_, fun s found ↦ ?_⟩
    · rw [← mem_firstNames_take]
      split
      · next mem => exact iff_of_true rfl mem
      · next new => exact iff_of_false Bool.false_ne_true new
    · split at found
      · cases found
        exact ⟨fun none ↦ by rw [none, idxOf_empty]; rfl, fun i ↦ reply_intern⟩
      · cases found

end Interner

/-! ### Replies of a table -/

namespace InternTable

variable {t : InternTable} {rs : List NameRequest} {name : String} {r : NameRequest}

/-- The interner that has seen the names of a table. -/
def interner (t : InternTable) : Interner := ⟨t.names⟩

namespace Inverse

/-- A name that has a place has the number of this place. -/
private theorem number_of_place (h : t.Inverse) {k : Nat} (place : t.names[k]? = some name) :
    ∃ n : UInt32, n.toNat = k ∧ t.numbers[name]? = some n := by
  obtain ⟨lt, -⟩ := Array.getElem?_eq_some_iff.1 place
  have small : k < UInt32.size := Nat.lt_of_lt_of_le lt h.size_le
  refine ⟨.ofNatLT k small, UInt32.toNat_ofNatLT, (h.number_iff ..).2 ?_⟩
  rw [UInt32.toNat_ofNatLT, place]

theorem get?_eq (h : t.Inverse) (name : String) : t.get? name = t.interner.get? name := by
  rw [Interner.get?_eq]
  split
  · next mem =>
    have place : t.names[t.names.toList.idxOf name]? = some name := by
      rw [← Array.getElem?_toList]
      exact List.getElem?_idxOf mem
    obtain ⟨n, number, found⟩ := h.number_of_place place
    rw [get?, found, Option.map_some, number]
    rfl
  · next new =>
    rw [get?_eq_none_iff, Option.eq_none_iff_forall_ne_some]
    intro n found
    have place := (h.number_iff name n).1 found
    rw [← Array.getElem?_toList] at place
    exact new (List.mem_of_getElem? place)

/-- While there are words enough a table interns names as an interner does. -/
theorem intern_eq (h : t.Inverse) (room : (t.interner.intern name).2.size ≤ UInt32.size) :
    (t.intern name).1 = some (t.interner.intern name).1 ∧
      (t.intern name).2.interner = (t.interner.intern name).2 := by
  have same := h.get?_eq name
  unfold Interner.intern at room ⊢
  obtain ⟨s, seen, eq⟩ | ⟨new, n, -, eq⟩ | ⟨new, full, -⟩ := t.intern_cases name
  · rw [← same, seen, eq]
    exact ⟨rfl, rfl⟩
  · rw [← same, new, eq]
    exact ⟨rfl, rfl⟩
  · rw [← same, new] at room
    have grown : t.names.size + 1 ≤ UInt32.size := by simpa [Interner.size, interner] using room
    exact absurd full (Nat.not_le.2 grown)

theorem serve (h : t.Inverse) (r : NameRequest) : (t.serve r).2.Inverse := by
  cases r with
  | intern name => exact h.intern name
  | get _ | lookup _ => exact h

theorem serve_eq (h : t.Inverse) (room : (t.interner.serve r).2.size ≤ UInt32.size) :
    (t.serve r).1 = (t.interner.serve r).1 ∧
      (t.serve r).2.interner = (t.interner.serve r).2 := by
  cases r with
  | intern name =>
    obtain ⟨symbol, after⟩ := h.intern_eq room
    exact ⟨congrArg NameReply.symbol symbol, after⟩
  | get name => exact ⟨congrArg NameReply.symbol (h.get?_eq name), rfl⟩
  | lookup s => exact ⟨rfl, rfl⟩

end Inverse

theorem inverse_afterRequests (rs : List NameRequest) : (afterRequests serve new rs).Inverse := by
  induction rs using List.reverseRecOn with
  | nil => exact .new
  | append_singleton rs r ih =>
    rw [afterRequests_concat]
    exact ih.serve r

private theorem size_afterRequests (rs : List NameRequest) :
    (afterRequests Interner.serve .empty rs).size = (firstNames rs).length := by
  rw [← Interner.names_afterRequests, Array.length_toList]
  rfl

private theorem length_firstNames_concat (rs : List NameRequest) (r : NameRequest) :
    (firstNames rs).length ≤ (firstNames (rs ++ [r])).length := by
  have first := firstNames_take_initial (rs ++ [r]) rs.length
  rw [List.take_left] at first
  exact first.length_le

/-- While there are words enough a table sees the names that an interner sees. -/
theorem interner_afterRequests (room : (firstNames rs).length ≤ UInt32.size) :
    (afterRequests serve new rs).interner = afterRequests Interner.serve .empty rs := by
  induction rs using List.reverseRecOn with
  | nil => rfl
  | append_singleton rs r ih =>
    have before := ih (Nat.le_trans (length_firstNames_concat rs r) room)
    rw [← size_afterRequests, afterRequests_concat, ← before] at room
    rw [afterRequests_concat, afterRequests_concat, ← before]
    exact ((inverse_afterRequests rs).serve_eq room).2

/-- While there are words enough a table replies as an interner does. -/
theorem replies_eq (room : (firstNames rs).length ≤ UInt32.size) :
    replies serve new rs = replies Interner.serve .empty rs := by
  refine List.ext_getElem? fun i ↦ ?_
  rw [getElem?_replies, getElem?_replies]
  cases request : rs[i]? with
  | none => rfl
  | some r =>
    have room' := Nat.le_trans (firstNames_take_initial rs (i + 1)).length_le room
    have before := interner_afterRequests
      (Nat.le_trans (firstNames_take_initial rs i).length_le room)
    rw [← size_afterRequests, take_upTo request, afterRequests_concat, ← before] at room'
    rw [Option.map_some, Option.map_some, ((inverse_afterRequests _).serve_eq room').1, before]

private theorem length_firstNames_le (rs : List NameRequest) :
    (firstNames rs).length ≤ (interned rs).eraseDups.length + 1 := by
  have names : firstNames rs ⊆ "" :: (interned rs).eraseDups := by
    intro name mem
    rwa [firstNames, List.mem_eraseDups, List.mem_cons, ← List.mem_eraseDups, ← List.mem_cons]
      at mem
  exact ((nodup_firstNames rs).subperm names).length_le

/-- A table that is asked to intern fewer than `2^32` names numbers them, in the order in which they
are first interned. Its map and its list of names stay inverse to each other, its names are all
names that are interned and the empty one, and without the requests that intern nothing it comes to
be the same and gives the same replies to the others. It replies as an interner does that has no
numbers of its own. -/
theorem replies_number_names (rs : List NameRequest)
    (few : (interned rs).eraseDups.length < UInt32.size) :
    let table := afterRequests serve new rs
    Numbers rs (replies serve new rs) ∧
    (table.names.toList = firstNames rs ∧ table.size = (firstNames rs).length ∧
      ∀ (name : String) (n : UInt32),
        table.numbers[name]? = some n ↔ table.names[n.toNat]? = some name) ∧
    (afterRequests serve new (rs.filter NameRequest.interns) = table ∧
      replies serve new (rs.filter NameRequest.interns) =
        ((rs.zip (replies serve new rs)).filter (·.1.interns)).map Prod.snd) ∧
    replies Interner.serve .empty rs = replies serve new rs ∧
      afterRequests Interner.serve .empty rs = ⟨table.names⟩ := by
  intro table
  have room : (firstNames rs).length ≤ UInt32.size := Nat.le_trans (length_firstNames_le rs) few
  have names := interner_afterRequests room
  have list : table.names.toList = firstNames rs := by
    rw [← Interner.names_afterRequests, ← names]
    rfl
  have quiet (t : InternTable) (r : NameRequest) (none : r.interns = false) :
      (t.serve r).2 = t := by
    cases r with
    | intern name => cases none
    | get _ | lookup _ => rfl
  refine ⟨?_, ⟨list, ?_, (inverse_afterRequests rs).number_iff⟩, replies_filter quiet new rs,
    (replies_eq room).symm, names.symm⟩
  · rw [replies_eq room]
    exact Interner.numbers_replies rs
  · rw [← list, Array.length_toList]
    rfl

/-- New names get the next numbers, known ones keep theirs, a name that is asked for too early is
not found, and the last symbol stands for its name. -/
theorem replies_xy :
    let rs : List NameRequest :=
      [.intern "x", .get "y", .intern "", .intern "y", .get "y", .intern "x", .lookup ⟨2⟩]
    (interned rs).eraseDups.length < UInt32.size ∧
      replies serve new rs = [.symbol (some ⟨1⟩), .symbol none, .symbol (some ⟨0⟩),
        .symbol (some ⟨2⟩), .symbol (some ⟨2⟩), .symbol (some ⟨1⟩), .name (some "y")] := by
  intro rs
  have few : (interned rs).eraseDups.length < UInt32.size := by decide +kernel
  obtain ⟨-, -, -, same, -⟩ := replies_number_names rs few
  refine ⟨few, same.symm.trans ?_⟩
  decide +kernel

end InternTable

end ConstraintEval
