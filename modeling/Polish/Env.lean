import Polish.Value

namespace Polish

structure Env where
  bindings : List (String × Value)
  nodup    : (bindings.map (·.1)).Nodup

namespace Env

def empty : Env where
  bindings := []
  nodup    := by simp

def get? (env : Env) (name : String) : Option Value :=
  env.bindings.lookup name

-- Binds a name, forgetting the value that it had.
def set (env : Env) (name : String) (value : Value) : Env where
  bindings := (name, value) :: env.bindings.filter (·.1 != name)
  nodup    := by
    simp only [List.map_cons, List.nodup_cons]
    exact ⟨by simp, env.nodup.sublist (List.filter_sublist.map _)⟩

-- Forgets all names.
def clear (_ : Env) : Env :=
  empty

def contains (env : Env) (name : String) : Bool :=
  (env.get? name).isSome

def size (env : Env) : Nat :=
  env.bindings.length

def isEmpty (env : Env) : Bool :=
  env.bindings.isEmpty

@[simp]
theorem get?_empty (name : String) : empty.get? name = none :=
  rfl

@[simp]
theorem get?_set_self (env : Env) (name : String) (value : Value) :
    (env.set name value).get? name = some value := by
  simp [get?, set]

theorem get?_set_of_ne {env : Env} {name other : String} {value : Value} (h : other ≠ name) :
    (env.set name value).get? other = env.get? other := by
  have hb : (other == name) = false := by simp [h]
  simp only [get?, set, List.lookup_cons, hb]
  induction env.bindings
  case nil          => rfl
  case cons b bs hi =>
    obtain ⟨n, v⟩ := b
    by_cases hn : n = name
    case pos => simpa [hn, List.lookup_cons, hb] using hi
    case neg => simp [List.lookup_cons, hn, hi]

-- Binding a name unbinds no other.
theorem contains_set {env : Env} {other : String} (h : env.contains other) (name : String)
    (value : Value) : (env.set name value).contains other := by
  by_cases hn : other = name
  case pos => simp [contains, hn]
  case neg => simpa [contains, get?_set_of_ne hn] using h

theorem isEmpty_iff_size {env : Env} : env.isEmpty ↔ env.size = 0 := by
  simp [isEmpty, size]

end Env
end Polish
