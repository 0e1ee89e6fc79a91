import AsmListing.Settings.Basic

/-!
Edits of the settings, as a user asks for them: suffixes and globs to add or to take away, and the
treatment of blank lines. An edit becomes the updates that it makes to the current settings.
-/
namespace AsmListing

/-- What is to be changed. Empty texts ask for nothing. -/
structure SettingsEdit where
  addExtension : Option LooseText
  removeExtension : Option LooseText
  addExclude : Option LooseText
  removeExclude : Option LooseText
  collapse : Option Bool
  deriving DecidableEq, Repr

namespace SettingsEdit

/-- The text if something is asked for. -/
def asked (t : Option LooseText) : Option LooseText := t.filter fun t => !t.isEmpty

/-- A suffix with its dot. -/
def dotted (suffix : LooseText) : LooseText :=
  if suffix.head? = some (.char '.') then suffix else .char '.' :: suffix

/-- The list with `item` at its end, or nothing if that is in it already. -/
def adding (item : Option LooseText) (items : List LooseText) : Option (List LooseText) :=
  item.bind fun x => if items.contains x then none else some (items ++ [x])

/-- The list without `item`, or nothing if that is not in it. -/
def removing (item : Option LooseText) (items : List LooseText) : Option (List LooseText) :=
  item.bind fun x => if items.contains x then some (items.filter fun y => y != x) else none

/-- The list after adding one item and then removing one, or nothing if neither changes it. -/
def changed (add remove : Option LooseText) (items : List LooseText) : Option (List LooseText) :=
  let added := adding add items
  (removing remove (added.getD items)).or added

/-- The settings that change, with their new values. -/
def updates (e : SettingsEdit) (current : Fields) : Fields :=
  let extensions := changed ((asked e.addExtension).map dotted)
    ((asked e.removeExtension).map dotted) (Settings.extensions current)
  let exclude := changed (asked e.addExclude) (asked e.removeExclude) (Settings.exclude current)
  (extensions.map fun xs => (Settings.extensionsKey, Json.strings xs)).toList ++
    (exclude.map fun xs => (Settings.excludeKey, Json.strings xs)).toList ++
    (e.collapse.map fun b => (Settings.collapseKey, Json.bool b)).toList

end SettingsEdit

end AsmListing
