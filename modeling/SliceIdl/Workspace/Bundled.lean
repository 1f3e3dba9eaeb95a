import SliceIdl.Workspace.Reader

/-!
# Bundled definitions

The standard definitions that user files commonly include, by their paths below the directory in
which they are found.
-/

set_option autoImplicit false

namespace SliceIdl.Bundled

def ofLines (lines : List String) : Text :=
  lines.flatMap fun line => line.toList ++ ['\n']

def builtinSequences : Text :=
  ofLines
    ["#pragma once",
      "",
      "[[\"cpp:dll-export:ICE_API\"]]",
      "[[\"java:package:com.zeroc\"]]",
      "[[\"python:pkgdir:Ice\"]]",
      "",
      "module Ice",
      "\x7b",
      "    /** A sequence of bools. */",
      "    sequence<bool> BoolSeq;",
      "",
      "    /** A sequence of bytes. */",
      "    sequence<byte> ByteSeq;",
      "",
      "    /** A sequence of shorts. */",
      "    sequence<short> ShortSeq;",
      "",
      "    /** A sequence of ints. */",
      "    sequence<int> IntSeq;",
      "",
      "    /** A sequence of longs. */",
      "    sequence<long> LongSeq;",
      "",
      "    /** A sequence of floats. */",
      "    sequence<float> FloatSeq;",
      "",
      "    /** A sequence of doubles. */",
      "    sequence<double> DoubleSeq;",
      "",
      "    /** A sequence of strings. */",
      "    sequence<string> StringSeq;",
      "",
      "    /** A sequence of objects. */",
      "    sequence<Value> ObjectSeq;",
      "",
      "    /** A sequence of object proxies. */",
      "    sequence<Object*> ObjectProxySeq;",
      "\x7d"]

def context : Text :=
  ofLines
    ["#pragma once",
      "",
      "[[\"cpp:dll-export:ICE_API\"]]",
      "[[\"java:package:com.zeroc\"]]",
      "[[\"python:pkgdir:Ice\"]]",
      "",
      "module Ice",
      "\x7b",
      "    /**",
      "     * A request context. Context is used to transmit metadata about a",
      "     * request from the server to the client, such as Quality-of-Service",
      "     * (QoS) parameters. Each operation on the client has a Context as",
      "     * its implicit final parameter.",
      "     */",
      "    dictionary<string, string> Context;",
      "\x7d"]

def identity : Text :=
  ofLines
    ["#pragma once",
      "",
      "[[\"cpp:dll-export:ICE_API\"]]",
      "[[\"java:package:com.zeroc\"]]",
      "[[\"python:pkgdir:Ice\"]]",
      "",
      "module Ice",
      "\x7b",
      "    /**",
      "     * The identity of an Ice object. In a proxy, an empty name denotes a",
      "     * nil proxy. An identity with an empty name and a non-empty category is",
      "     * illegal.",
      "     */",
      "    [\"cpp:comparable\", \"js:identity\"]",
      "    struct Identity",
      "    \x7b",
      "        /** The name of the Ice object. */",
      "        string name;",
      "",
      "        /** The Ice object category. */",
      "        string category;",
      "    \x7d",
      "",
      "    /** A mapping between identities and Ice objects. */",
      "    dictionary<Identity, Object> ObjectDict;",
      "",
      "    /** A sequence of identities. */",
      "    sequence<Identity> IdentitySeq;",
      "\x7d"]

def version : Text :=
  ofLines
    ["#pragma once",
      "",
      "[[\"cpp:dll-export:ICE_API\"]]",
      "[[\"java:package:com.zeroc\"]]",
      "[[\"python:pkgdir:Ice\"]]",
      "",
      "module Ice",
      "\x7b",
      "    /** A version structure for the protocol version. */",
      "    [\"cpp:comparable\"]",
      "    struct ProtocolVersion",
      "    \x7b",
      "        byte major;",
      "        byte minor;",
      "    \x7d",
      "",
      "    /** A version structure for the encoding version. */",
      "    [\"cpp:comparable\"]",
      "    struct EncodingVersion",
      "    \x7b",
      "        byte major;",
      "        byte minor;",
      "    \x7d",
      "\x7d"]

def files : List (List Text × Text) :=
  [(["Ice".toList, "BuiltinSequences.ice".toList], builtinSequences),
    (["Ice".toList, "Context.ice".toList], context),
    (["Ice".toList, "Identity.ice".toList], identity),
    (["Ice".toList, "Version.ice".toList], version)]

def install (t : FileTree) (directory : Place) : FileTree :=
  files.foldl (fun t f => t.plant [] (directory ++ f.1) (.file (encodeText f.2))) t

end SliceIdl.Bundled
