import Mathlib.Data.List.Basic

/-! Inode types, stable attributes, error numbers and the reserved extended-attribute
namespace of the overlay in package `fs`. -/

set_option autoImplicit false

namespace ContainerFs.Fs

/-- `InodeType`: the kind of object an inode stands for. -/
inductive InodeType where
  | regularFile
  | specialFile
  | directory
  | specialDirectory
  | symlink
  | pipe
  | socket
  | characterDevice
  | blockDevice
  | anonymous
  deriving DecidableEq, Repr

/-- `StableAttr`: the identity of an inode, which must not change across copy-up. -/
structure StableAttr where
  type : InodeType
  deviceID : Nat
  inodeID : Nat
  deriving DecidableEq, Repr

/-- `IsDir`: directories and the special directories that carry submounts. -/
def isDir (sattr : StableAttr) : Bool :=
  sattr.type = .directory || sattr.type = .specialDirectory

/-- The `syserror` values the overlay returns or passes through; `other` for any other. -/
inductive Errno where
  | ENOENT
  | ENODATA
  | ENOTEMPTY
  | EXDEV
  | EOPNOTSUPP
  | EACCES
  | EEXIST
  | EISDIR
  | ENOTDIR
  | EINVAL
  | EBUSY
  | other (code : Nat)
  deriving DecidableEq, Repr

/-- What a Go call ends in: a value, an error, or a panic. -/
inductive Outcome (α : Type) where
  | ok (value : α)
  | err (e : Errno)
  | panic (why : String)
  deriving DecidableEq, Repr

def Outcome.map {α β : Type} (f : α → β) : Outcome α → Outcome β
  | .ok a => .ok (f a)
  | .err e => .err e
  | .panic why => .panic why

def Outcome.isPanic {α : Type} : Outcome α → Bool
  | .panic _ => true
  | _ => false

def Outcome.ofExcept {α : Type} : Except Errno α → Outcome α
  | .ok a => .ok a
  | .error e => .err e

@[simp] theorem Outcome.ofExcept_ne_panic {α : Type} (x : Except Errno α) (why : String) :
    Outcome.ofExcept x ≠ .panic why := by
  cases x <;> simp [Outcome.ofExcept]

/-- Modelled from the spec: the reserved namespace of overlay attributes (§6). -/
def xattrOverlayPrefix : String := "trusted.overlay."

/-- Modelled from the spec: the whiteout key of a masked child (§3). -/
def xattrOverlayWhiteout (name : String) : String := xattrOverlayPrefix ++ "whiteout." ++ name

/-- `strings.HasPrefix(s, prefix)`. -/
def hasPrefix (s pre : String) : Bool := pre.data.isPrefixOf s.data

theorem hasPrefix_iff (s pre : String) : hasPrefix s pre = true ↔ pre.data <+: s.data :=
  List.isPrefixOf_iff_prefix

end ContainerFs.Fs
