/-!
# A schema with something of every kind

Every primitive, derivations of several steps, mixed and empty content, recursion, and content models
of every form.
-/
namespace XmlBinding.Samples

/-- The text of the schema. -/
def kindsSchema : String := r#"<?xml version="1.0" encoding="utf-8"?>
<xs:schema xmlns:xs="http://www.w3.org/2001/XMLSchema" xmlns:k="urn:kinds" targetNamespace="urn:kinds">

  <xs:simpleType name="Odd">
    <xs:restriction base="xs:string">
      <xs:enumeration value=""/>
      <xs:enumeration value="NotSet"/>
      <xs:enumeration value="read-only"/>
      <xs:enumeration value="read_only"/>
      <xs:enumeration value="1.0"/>
      <xs:enumeration value="+"/>
      <xs:enumeration value="Self"/>
      <xs:enumeration value="two words"/>
      <xs:enumeration value="übergröße"/>
      <xs:enumeration value="ALLCAPS"/>
    </xs:restriction>
  </xs:simpleType>

  <xs:simpleType name="Mode">
    <xs:restriction base="xs:token">
      <xs:enumeration value="r"/>
      <xs:enumeration value="w"/>
      <xs:enumeration value="none"/>
      <xs:enumeration value="two words"/>
      <xs:enumeration value=""/>
      <xs:enumeration value="64bit"/>
    </xs:restriction>
  </xs:simpleType>
  <xs:simpleType name="Modes"><xs:list itemType="k:Mode"/></xs:simpleType>

  <xs:attributeGroup name="Numbers">
    <xs:attribute name="Byte" type="xs:byte"/>
    <xs:attribute name="Short" type="xs:short"/>
    <xs:attribute name="Int" type="xs:int"/>
    <xs:attribute name="Long" type="xs:long"/>
    <xs:attribute name="Integer" type="xs:integer"/>
    <xs:attribute name="NonPositive" type="xs:nonPositiveInteger"/>
    <xs:attribute name="UByte" type="xs:unsignedByte"/>
    <xs:attribute name="UShort" type="xs:unsignedShort"/>
    <xs:attribute name="UInt" type="xs:unsignedInt"/>
    <xs:attribute name="ULong" type="xs:unsignedLong"/>
    <xs:attribute name="Positive" type="xs:positiveInteger"/>
    <xs:attribute name="Float" type="xs:float"/>
    <xs:attribute name="Double" type="xs:double"/>
    <xs:attribute name="Decimal" type="xs:decimal"/>
  </xs:attributeGroup>

  <xs:complexType name="Base" abstract="true">
    <xs:sequence><xs:element name="Head" type="xs:string" minOccurs="0"/></xs:sequence>
    <xs:attribute name="Id" type="xs:ID"/>
  </xs:complexType>
  <xs:complexType name="Middle">
    <xs:complexContent>
      <xs:extension base="k:Base">
        <xs:choice><xs:element name="Left" type="xs:int"/><xs:element name="Right" type="xs:int"/></xs:choice>
        <xs:attribute name="Mode" type="k:Modes"/>
      </xs:extension>
    </xs:complexContent>
  </xs:complexType>
  <xs:complexType name="Item">
    <xs:complexContent>
      <xs:extension base="k:Middle">
        <xs:sequence><xs:element name="Tail" type="xs:date" maxOccurs="2"/></xs:sequence>
        <xs:attribute name="Id" type="xs:int"/>
      </xs:extension>
    </xs:complexContent>
  </xs:complexType>

  <xs:complexType name="Measure">
    <xs:simpleContent>
      <xs:extension base="xs:float"><xs:attribute name="Unit" type="k:Odd"/></xs:extension>
    </xs:simpleContent>
  </xs:complexType>
  <xs:complexType name="Sized">
    <xs:simpleContent>
      <xs:restriction base="k:Measure">
        <xs:enumeration value="S"/><xs:enumeration value="M"/><xs:enumeration value="L"/>
      </xs:restriction>
    </xs:simpleContent>
  </xs:complexType>
  <xs:complexType name="Tree">
    <xs:sequence>
      <xs:element name="Node" type="k:Tree" minOccurs="0" maxOccurs="unbounded"/>
      <xs:element name="Leaf" minOccurs="0">
        <xs:simpleType>
          <xs:list>
            <xs:simpleType>
              <xs:restriction base="xs:string"><xs:enumeration value="x"/><xs:enumeration value="y"/></xs:restriction>
            </xs:simpleType>
          </xs:list>
        </xs:simpleType>
      </xs:element>
    </xs:sequence>
    <xs:attribute name="label" type="xs:string"/>
  </xs:complexType>

  <xs:group name="Extras">
    <xs:choice>
      <xs:element name="P" type="xs:boolean"/>
      <xs:element name="Q" type="xs:time" maxOccurs="2"/>
    </xs:choice>
  </xs:group>

  <xs:element name="Kinds">
    <xs:complexType>
      <xs:attributeGroup ref="k:Numbers"/>
      <xs:attribute name="Bool" type="xs:boolean"/>
      <xs:attribute name="Text" type="xs:string"/>
      <xs:attribute name="Stamp" type="xs:dateTime"/>
      <xs:attribute name="Day" type="xs:date"/>
      <xs:attribute name="At" type="xs:time"/>
      <xs:attribute name="Odd" type="k:Odd"/>
      <xs:attribute name="Modes" type="k:Modes"/>
      <xs:attribute name="Content" type="xs:int"/>
      <xs:attribute name="parent" type="xs:string"/>
      <xs:attribute name="type" type="xs:string"/>
    </xs:complexType>
  </xs:element>
  <xs:element name="Item" type="k:Item"/>
  <xs:element name="Ghost" type="k:Item" abstract="true"/>
  <xs:element name="Root" type="k:Tree"/>
  <xs:element name="Size" type="k:Sized"/>
  <xs:element name="Blob"/>
  <xs:element name="Nothing"><xs:complexType/></xs:element>
  <xs:element name="Stamp" type="xs:dateTime"/>
  <xs:element name="Count" type="xs:unsignedByte"/>
  <xs:element name="Flag" type="xs:boolean"/>
  <xs:element name="Access" type="k:Modes"/>
  <xs:element name="Para">
    <xs:complexType mixed="true">
      <xs:choice minOccurs="0" maxOccurs="unbounded">
        <xs:element name="Em" type="xs:string"/>
        <xs:element ref="k:Para"/>
      </xs:choice>
      <xs:attribute name="Lang" type="xs:language"/>
    </xs:complexType>
  </xs:element>
  <xs:element name="Nest">
    <xs:complexType>
      <xs:sequence maxOccurs="2">
        <xs:element name="A" type="xs:string"/>
        <xs:choice maxOccurs="1">
          <xs:element name="B" type="xs:string"/>
          <xs:sequence maxOccurs="3">
            <xs:element name="C" type="xs:string"/>
            <xs:element name="D" type="xs:string" maxOccurs="unbounded"/>
            <xs:element name="Never" type="xs:string" minOccurs="0" maxOccurs="0"/>
          </xs:sequence>
        </xs:choice>
        <xs:group ref="k:Extras" minOccurs="0"/>
      </xs:sequence>
    </xs:complexType>
  </xs:element>
  <xs:element name="Pick">
    <xs:complexType>
      <xs:choice>
        <xs:element name="A" type="xs:string" maxOccurs="2"/>
        <xs:sequence><xs:element name="A" type="xs:string"/><xs:element name="B" type="xs:string"/></xs:sequence>
        <xs:any/>
      </xs:choice>
    </xs:complexType>
  </xs:element>
  <xs:element name="AllOf">
    <xs:complexType>
      <xs:all>
        <xs:element ref="k:Flag" minOccurs="0"/>
        <xs:element ref="k:Count"/>
        <xs:element name="Item" type="xs:int"/>
      </xs:all>
    </xs:complexType>
  </xs:element>
</xs:schema>
"#

end XmlBinding.Samples
