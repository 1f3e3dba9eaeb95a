import SliceIdl.Path.Basic

/-!
# Paths in parts

A path taken apart into its root and its proper segments. Unlike a normalised path it keeps every
`..`, so it names the same place also where directories are links.
-/

set_option autoImplicit false

namespace SliceIdl

structure PathParts where
  root : Text
  parts : List Text
  deriving DecidableEq, Repr

namespace PathParts

def ofText (p : Text) : PathParts where
  root := Path.rootOf p
  parts := (Path.segments p).filter Path.isProper

def toText (p : PathParts) : Text :=
  Path.orDot (p.root ++ Text.joined ['/'] p.parts)

def extend (p : PathParts) (segments : List Text) : PathParts :=
  { p with parts := p.parts ++ segments.filter Path.isProper }

def parent (p : PathParts) : PathParts :=
  { p with parts := p.parts.dropLast }

end PathParts

end SliceIdl
