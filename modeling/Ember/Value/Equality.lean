import Ember.Value.Basic

/-!
# Two notions of equality

`Value.equal` is the `==` of the language: by value for scalars, strings and `null`, by identity for
arrays, hashes and functions, by name for builtins. Signals equal nothing.

`Value.alike` compares contents. Two arrays are alike when their elements are, two hashes when they
hold the same keys with values that are alike, in whatever order. Functions can reach themselves
through their scope, so they are compared by identity here too.
-/

namespace Ember.Value

/-- The equality of the language. -/
def equal : Value → Value → Bool
  | integer a, integer b => a == b
  | boolean a, boolean b => a == b
  | string a, string b => a == b
  | null, null => true
  | array a _, array b _ => a == b
  | hash a _, hash b _ => a == b
  | function a _ _, function b _ _ => a == b
  | builtin a, builtin b => a == b
  | _, _ => false

mutual

/-- Whether two values have the same contents. -/
def alike : Value → Value → Bool
  | integer a, integer b => a == b
  | boolean a, boolean b => a == b
  | string a, string b => a == b
  | array _ as, array _ bs => alikeList as bs
  | hash _ m, hash _ n => m.length == n.length && alikeEntries m n
  | function a _ _, function b _ _ => a == b
  | builtin a, builtin b => a == b
  | null, null => true
  | returnSignal a, returnSignal b => alike a b
  | error a, error b => a == b
  | _, _ => false

/-- Whether two lists have alike values at every place. -/
def alikeList : List Value → List Value → Bool
  | [], [] => true
  | a :: as, b :: bs => alike a b && alikeList as bs
  | _, _ => false

/-- Whether every entry has one in `n` with the same key and an alike value. -/
def alikeEntries : List (HashKey × Value × Value) → HashEntries → Bool
  | [], _ => true
  | (key, _, a) :: m, n =>
    (match OrderedMap.get? n key with
      | some (_, b) => alike a b
      | none => false) && alikeEntries m n

end

end Ember.Value
